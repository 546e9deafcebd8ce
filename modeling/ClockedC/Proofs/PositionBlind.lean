import ClockedC.Proofs.Positions
import ClockedC.Proofs.Reading

/-!
# Reading without regard to positions

Two token sequences that differ in positions only are read alike. The parsers look at symbols, and
keep positions for what they build and for the lines of errors. This file compares two runs of each
parser.

* `SameSymbols` says that two token sequences differ in positions only.
* `view` is what can be seen of an outcome when positions are taken away: a value, or a fault
  without its line.
* `Parse.view_expression`, `Parse.view_block` and `Parse.view_functions`: the parsers have the same
  view on both sequences.
-/

namespace ClockedC

/-- The symbols of two token sequences are the same. -/
def SameSymbols (ts us : List Token) : Prop :=
  ts.map Token.symbol = us.map Token.symbol

/-- An outcome seen without positions: a value as `see` shows it, or a fault without its line. -/
def view {α γ : Type} (see : α → γ) : Except ParseError α → Except ParseFault γ
  | .ok a => .ok (see a)
  | .error e => .error e.fault

/-- What was read, with the symbols that are left. -/
def Read.trace {α γ : Type} {ts : List Token} (see : α → γ) (r : Read α ts) : γ × List Symbol :=
  (see r.value, r.rest.map Token.symbol)

/-- What was found, with the symbols that are left. -/
def Pass.trace {α γ : Type} {ts : List Token} (see : α → γ) (r : Pass α ts) : γ × List Symbol :=
  (see r.value, r.rest.map Token.symbol)

namespace SameSymbols

theorem length_eq {ts us : List Token} (h : SameSymbols ts us) : ts.length = us.length := by
  have hlength := congrArg List.length h
  rwa [List.length_map, List.length_map] at hlength

theorem symbol_eq {ts us : List Token} (h : SameSymbols ts us) :
    Cursor.symbol ts = Cursor.symbol us := by
  cases ts with
  | nil =>
    cases us with
    | nil => rfl
    | cons u us => cases h
  | cons t ts =>
    cases us with
    | nil => cases h
    | cons u us => exact (List.cons.inj h).1

theorem cons_inv {s : Symbol} {p : Position} {ts us : List Token}
    (h : SameSymbols (⟨s, p⟩ :: ts) us) :
    ∃ q us', us = ⟨s, q⟩ :: us' ∧ SameSymbols ts us' := by
  cases us with
  | nil => cases h
  | cons u us =>
    obtain ⟨s', q⟩ := u
    obtain ⟨hsymbol, hrest⟩ := List.cons.inj h
    cases hsymbol
    exact ⟨q, us, rfl, hrest⟩

theorem afterSemicolon {ts us : List Token} (h : SameSymbols ts us) :
    SameSymbols (Cursor.afterSemicolon ts) (Cursor.afterSemicolon us) := by
  induction ts generalizing us with
  | nil =>
    cases us with
    | nil => rfl
    | cons u us => cases h
  | cons t ts ih =>
    obtain ⟨s, p⟩ := t
    obtain ⟨q, us, rfl, hrest⟩ := h.cons_inv
    unfold Cursor.afterSemicolon
    dsimp only
    split
    · exact h
    · exact hrest
    · exact ih hrest

theorem afterStatement {ts us : List Token} (h : SameSymbols ts us) :
    SameSymbols (Cursor.afterStatement ts) (Cursor.afterStatement us) := by
  induction ts generalizing us with
  | nil =>
    cases us with
    | nil => rfl
    | cons u us => cases h
  | cons t ts ih =>
    obtain ⟨s, p⟩ := t
    obtain ⟨q, us, rfl, hrest⟩ := h.cons_inv
    unfold Cursor.afterStatement
    dsimp only
    split
    · exact h
    · exact h
    · exact hrest
    · exact ih hrest

theorem endOfHeader {ts us : List Token} (h : SameSymbols ts us) (depth : Nat) :
    SameSymbols (Cursor.endOfHeader depth ts) (Cursor.endOfHeader depth us) := by
  induction ts generalizing us depth with
  | nil =>
    cases us with
    | nil => rfl
    | cons u us => cases h
  | cons t ts ih =>
    obtain ⟨s, p⟩ := t
    obtain ⟨q, us, rfl, hrest⟩ := h.cons_inv
    unfold Cursor.endOfHeader
    dsimp only
    split
    · exact h
    · exact h
    · exact ih hrest _
    · exact ih hrest _
    · exact ih hrest _

end SameSymbols

/-! ## Views of computations in parts -/

section Views

variable {α β γ δ ε : Type} {ts us : List Token}

theorem view_eq_iff {see : α → γ} {see' : β → γ} {x : Except ParseError α}
    {y : Except ParseError β} :
    view see x = view see' y ↔ (∃ a b, x = .ok a ∧ y = .ok b ∧ see a = see' b) ∨
      ∃ e e', x = .error e ∧ y = .error e' ∧ e.fault = e'.fault := by
  cases x <;> cases y <;> simp [view]

theorem view_bind {see : α → γ} {see' : β → γ} {x : Except ParseError α} {y : Except ParseError β}
    {k : α → Except ParseError δ} {k' : β → Except ParseError ε} {η : Type} {last : δ → η}
    {last' : ε → η} (hxy : view see x = view see' y)
    (hk : ∀ a b, see a = see' b → view last (k a) = view last' (k' b)) :
    view last (x >>= k) = view last' (y >>= k') := by
  cases x with
  | error e =>
    cases y with
    | error e' => exact congrArg Except.error (Except.error.inj hxy)
    | ok b => cases hxy
  | ok a =>
    cases y with
    | error e' => cases hxy
    | ok b => exact hk a b (Except.ok.inj hxy)

theorem view_outcome_bind {see : α → γ} {see' : β → γ} {x : Logged α} {y : Logged β}
    {k : α → Logged δ} {k' : β → Logged ε} {η : Type} {last : δ → η} {last' : ε → η}
    (hxy : view see x.outcome = view see' y.outcome)
    (hk : ∀ a b, see a = see' b → view last (k a).outcome = view last' (k' b).outcome) :
    view last (x >>= k).outcome = view last' (y >>= k').outcome := by
  obtain ⟨log, x⟩ := x
  obtain ⟨log', y⟩ := y
  cases x with
  | error e =>
    cases y with
    | error e' => exact congrArg Except.error (Except.error.inj hxy)
    | ok b => cases hxy
  | ok a =>
    cases y with
    | error e' => cases hxy
    | ok b => exact hk a b (Except.ok.inj hxy)

/-- What holds of two readings with the same trace can be shown from the values and the rests. -/
theorem Read.forall_of_trace {see : α → γ} {P : Read α ts → Read α us → Prop}
    (h : ∀ a b rest rest' hr hr', see a = see b → SameSymbols rest rest' →
      P ⟨a, rest, hr⟩ ⟨b, rest', hr'⟩) (r : Read α ts) (r' : Read α us)
    (htrace : r.trace see = r'.trace see) : P r r' := by
  obtain ⟨hvalue, hrest⟩ := Prod.mk.inj htrace
  exact h _ _ _ _ r.left r'.left hvalue hrest

theorem Pass.forall_of_trace {see : α → γ} {P : Pass α ts → Pass α us → Prop}
    (h : ∀ a b rest rest' hr hr', see a = see b → SameSymbols rest rest' →
      P ⟨a, rest, hr⟩ ⟨b, rest', hr'⟩) (r : Pass α ts) (r' : Pass α us)
    (htrace : r.trace see = r'.trace see) : P r r' := by
  obtain ⟨hvalue, hrest⟩ := Prod.mk.inj htrace
  exact h _ _ _ _ r.left r'.left hvalue hrest

theorem view_read {see : α → γ} {a b : α} {rest rest' : List Token} {h : Beyond rest ts}
    {h' : Beyond rest' us} (hvalue : see a = see b) (hrest : SameSymbols rest rest') :
    view (Read.trace see) (.ok ⟨a, rest, h⟩) = view (Read.trace see) (.ok ⟨b, rest', h'⟩) :=
  congrArg Except.ok (Prod.ext hvalue hrest)

theorem view_pass {see : α → γ} {a b : α} {rest rest' : List Token} {h : Left rest ts}
    {h' : Left rest' us} (hvalue : see a = see b) (hrest : SameSymbols rest rest') :
    view (Pass.trace see) (.ok ⟨a, rest, h⟩) = view (Pass.trace see) (.ok ⟨b, rest', h'⟩) :=
  congrArg Except.ok (Prod.ext hvalue hrest)

end Views

/-! ## One token -/

namespace Cursor

variable {ts us : List Token}

/-- The same symbol comes next in both sequences, or both end. -/
theorem next?_cases_of_same (h : SameSymbols ts us) :
    (∃ s p q rest rest' hr hr', SameSymbols rest rest' ∧
      next? ts = some ⟨⟨s, p⟩, rest, hr⟩ ∧ next? us = some ⟨⟨s, q⟩, rest', hr'⟩) ∨
    next? ts = none ∧ next? us = none := by
  rcases next?_cases ts with ⟨s, p, rest, hr, rfl, hnext⟩ | ⟨heof, hnext⟩
  · obtain ⟨q, rest', rfl, hrest⟩ := h.cons_inv
    have hs : s ≠ .eof := by
      intro hs
      have hnone := next?_eq_none ((symbol_cons ⟨s, p⟩ rest).trans hs)
      rw [hnext] at hnone
      cases hnone
    exact .inl ⟨s, p, q, rest, rest', hr, _, hrest, hnext, next?_cons (t := ⟨s, q⟩) hs rest'⟩
  · exact .inr ⟨hnext, next?_eq_none (h.symbol_eq.symm.trans heof)⟩

/-- A symbol is taken off both sequences, or off none. -/
theorem accept_cases_of_same (h : SameSymbols ts us) (s : Symbol) :
    (∃ rest rest' hr hr', SameSymbols rest rest' ∧ accept s ts = some ⟨(), rest, hr⟩ ∧
      accept s us = some ⟨(), rest', hr'⟩) ∨ accept s ts = none ∧ accept s us = none := by
  unfold accept
  rcases next?_cases_of_same h with
    ⟨s', p, q, rest, rest', hr, hr', hrest, hts, hus⟩ | ⟨hts, hus⟩
  · rw [hts, hus]
    dsimp only
    by_cases hs : s' = s
    · rw [if_pos hs, if_pos hs]
      exact .inl ⟨rest, rest', hr, hr', hrest, rfl, rfl⟩
    · rw [if_neg hs, if_neg hs]
      exact .inr ⟨rfl, rfl⟩
  · rw [hts, hus]
    exact .inr ⟨rfl, rfl⟩

theorem view_expect (h : SameSymbols ts us) (mark : Punct) (place : Place) :
    view (Read.trace id) (expect mark place ts) = view (Read.trace id) (expect mark place us) := by
  unfold expect
  rcases accept_cases_of_same h (.punct mark) with ⟨rest, rest', hr, hr', hrest, hts, hus⟩ |
    ⟨hts, hus⟩
  · rw [hts, hus]
    exact view_read rfl hrest
  · rw [hts, hus]
    rfl

end Cursor

namespace Parse

open Cursor

/-! ## Expressions -/

theorem map_symbol_insideBrackets {ts us : List Token} (h : SameSymbols ts us) (depth : Nat) :
    (insideBrackets depth ts).map (List.map Token.symbol) =
      (insideBrackets depth us).map (List.map Token.symbol) := by
  induction ts generalizing us depth with
  | nil =>
    cases us with
    | nil => rfl
    | cons u us => cases h
  | cons t ts ih =>
    obtain ⟨s, p⟩ := t
    obtain ⟨q, us, rfl, hrest⟩ := h.cons_inv
    have hcons : ∀ d, ((insideBrackets d ts).map (⟨s, p⟩ :: ·)).map (List.map Token.symbol) =
        ((insideBrackets d us).map (⟨s, q⟩ :: ·)).map (List.map Token.symbol) := by
      intro d
      have hmap := congrArg (Option.map (s :: ·)) (ih hrest d)
      simpa only [Option.map_map, Function.comp_def, List.map_cons] using hmap
    unfold insideBrackets
    dsimp only
    split
    · rfl
    · rfl
    · rfl
    · exact hcons _
    · exact hcons _
    · exact hcons _
    · exact hcons _
    · exact hcons _

theorem view_indexText {ts us : List Token} (h : SameSymbols ts us) (table : ShapeTable)
    (base : String) (line line' : Nat) :
    view id (indexText table base line ts) = view id (indexText table base line' us) := by
  have hmap := map_symbol_insideBrackets h 0
  unfold indexText
  cases hts : insideBrackets 0 ts with
  | none =>
    rw [hts, Option.map_none] at hmap
    rw [Option.map_eq_none_iff.1 hmap.symm]
    rfl
  | some inside =>
    rw [hts, Option.map_some] at hmap
    obtain ⟨inside', hus, hsymbols⟩ := Option.map_eq_some_iff.1 hmap.symm
    rw [hus]
    cases inside with
    | nil =>
      cases List.map_eq_nil_iff.1 hsymbols
      rfl
    | cons t inside =>
      cases inside' with
      | nil => cases hsymbols
      | cons u inside' =>
        dsimp only
        rw [hsymbols]
        split
        · split <;> rfl
        · rfl

mutual

theorem view_operand {ts us : List Token} (h : SameSymbols ts us) (table : ShapeTable) :
    view (Read.trace Expr.unplaced) (operand table ts) =
      view (Read.trace Expr.unplaced) (operand table us) := by
  rw [operand, operand]
  rcases next?_cases_of_same h with
    ⟨s, p, q, rest, rest', hr, hr', hrest, hts, hus⟩ | ⟨hts, hus⟩
  · rw [hts, hus]
    have hlt := hr.length_lt
    dsimp only
    cases s with
    | operator spelling =>
      dsimp only
      cases UnaryOp.ofSpelling? spelling with
      | none => rfl
      | some op =>
        refine view_bind (view_operand hrest table) (Read.forall_of_trace ?_)
        intro e e' more more' _ _ he hmore
        exact view_read (congrArg (Expr.unary op) he) hmore
    | punct mark =>
      cases mark with
      | openParen =>
        refine view_bind (view_expression hrest table _) (Read.forall_of_trace ?_)
        intro e e' more more' _ _ he hmore
        refine view_bind (view_expect hmore _ _) (Read.forall_of_trace ?_)
        intro _ _ last last' _ _ _ hlast
        exact view_read he hlast
      | _ => rfl
    | number text => exact view_read rfl hrest
    | character c => exact view_read rfl hrest
    | name n =>
      dsimp only
      rcases accept_cases_of_same hrest (.punct .openParen) with
        ⟨more, more', hm, hm', hmore, hts, hus⟩ | ⟨hts, hus⟩
      · rw [hts, hus]
        have hlt' := hm.length_lt
        refine view_bind (view_arguments hmore table n) (Read.forall_of_trace ?_)
        intro args args' last last' _ _ hargs hlast
        exact view_read (congrArg (fun es => Expr.call n es none default) hargs) hlast
      · rw [hts, hus]
        dsimp only
        rcases accept_cases_of_same hrest (.punct .openBracket) with
          ⟨more, more', hm, hm', hmore, hts, hus⟩ | ⟨hts, hus⟩
        · rw [hts, hus]
          have hlt' := hm.length_lt
          refine view_bind (view_index hmore table n _ _) (Read.forall_of_trace ?_)
          intro i i' last last' _ _ hi hlast
          obtain ⟨hindex, htext⟩ := Prod.mk.inj hi
          refine view_read ?_ hlast
          rw [Expr.unplaced, Expr.unplaced, hindex, show i.2 = i'.2 from htext]
        · rw [hts, hus]
          exact view_read rfl hrest
    | _ => rfl
  · rw [hts, hus]
    rfl
termination_by 4 * ts.length

theorem view_expression {ts us : List Token} (h : SameSymbols ts us) (table : ShapeTable)
    (level : Nat) :
    view (Read.trace Expr.unplaced) (expression table level ts) =
      view (Read.trace Expr.unplaced) (expression table level us) := by
  rw [expression, expression]
  refine view_bind (view_operand h table) (Read.forall_of_trace ?_)
  intro left left' rest rest' hr _ hleft hrest
  have hlt := hr.length_lt
  refine view_bind (view_operations hrest table level hleft) (Pass.forall_of_trace ?_)
  intro e e' more more' _ _ he hmore
  exact view_read he hmore
termination_by 4 * ts.length + 1

theorem view_operations {ts us : List Token} (h : SameSymbols ts us) (table : ShapeTable)
    (level : Nat) {left left' : Expr} (hleft : left.unplaced = left'.unplaced) :
    view (Pass.trace Expr.unplaced) (operations table level left ts) =
      view (Pass.trace Expr.unplaced) (operations table level left' us) := by
  rw [operations, operations]
  rcases next?_cases_of_same h with
    ⟨s, p, q, rest, rest', hr, hr', hrest, hts, hus⟩ | ⟨hts, hus⟩
  · rw [hts, hus]
    have hlt := hr.length_lt
    dsimp only
    cases s.binary? with
    | none => exact view_pass hleft h
    | some op =>
      dsimp only
      rw [hrest.symbol_eq]
      split
      · exact view_pass hleft h
      · split
        · refine view_bind (view_expression hrest table _) (Read.forall_of_trace ?_)
          intro right right' more more' hm _ hright hmore
          have hlt' := hm.length_lt
          have hboth : (Expr.binary op left right).unplaced =
              (Expr.binary op left' right').unplaced := by
            rw [Expr.unplaced, Expr.unplaced, hleft, hright]
          refine view_bind (view_operations hmore table level hboth) (Pass.forall_of_trace ?_)
          intro e e' last last' _ _ he hlast
          exact view_pass he hlast
        · rfl
  · rw [hts, hus]
    exact view_pass hleft h
termination_by 4 * ts.length

theorem view_arguments {ts us : List Token} (h : SameSymbols ts us) (table : ShapeTable)
    (callee : String) :
    view (Read.trace Expr.unplacedList) (arguments table callee ts) =
      view (Read.trace Expr.unplacedList) (arguments table callee us) := by
  rw [arguments, arguments]
  rcases accept_cases_of_same h (.punct .closeParen) with
    ⟨rest, rest', hr, hr', hrest, hts, hus⟩ | ⟨hts, hus⟩
  · rw [hts, hus]
    exact view_read rfl hrest
  · rw [hts, hus]
    refine view_bind (view_expressions h table) (Read.forall_of_trace ?_)
    intro args args' rest rest' _ _ hargs hrest
    refine view_bind (view_expect hrest _ _) (Read.forall_of_trace ?_)
    intro _ _ last last' _ _ _ hlast
    exact view_read hargs hlast
termination_by 4 * ts.length + 3

theorem view_expressions {ts us : List Token} (h : SameSymbols ts us) (table : ShapeTable) :
    view (Read.trace Expr.unplacedList) (expressions table ts) =
      view (Read.trace Expr.unplacedList) (expressions table us) := by
  rw [expressions, expressions]
  refine view_bind (view_expression h table _) (Read.forall_of_trace ?_)
  intro e e' rest rest' hr _ he hrest
  dsimp only
  rcases accept_cases_of_same hrest (.punct .comma) with
    ⟨more, more', hm, hm', hmore, hts, hus⟩ | ⟨hts, hus⟩
  · rw [hts, hus]
    have hlt := (hr.andThen hm).length_lt
    refine view_bind (view_expressions hmore table) (Read.forall_of_trace ?_)
    intro es es' last last' _ _ hes hlast
    refine view_read ?_ hlast
    rw [Expr.unplacedList, Expr.unplacedList, he, hes]
  · rw [hts, hus]
    refine view_read ?_ hrest
    rw [Expr.unplacedList, Expr.unplacedList, he]
    rfl
termination_by 4 * ts.length + 2

theorem view_index {ts us : List Token} (h : SameSymbols ts us) (table : ShapeTable)
    (base : String) (line line' : Nat) :
    view (Read.trace (Prod.map Expr.unplaced id)) (index table base line ts) =
      view (Read.trace (Prod.map Expr.unplaced id)) (index table base line' us) := by
  rw [index, index]
  refine view_bind (view_indexText h table base line line') ?_
  intro text text' htext
  refine view_bind (view_expression h table _) (Read.forall_of_trace ?_)
  intro e e' rest rest' _ _ he hrest
  refine view_bind (view_expect hrest _ _) (Read.forall_of_trace ?_)
  intro _ _ last last' _ _ _ hlast
  exact view_read (Prod.ext he htext) hlast
termination_by 4 * ts.length + 2

end

theorem view_value {ts us : List Token} (h : SameSymbols ts us) (table : ShapeTable) :
    view (Read.trace Expr.unplaced) (value table ts) =
      view (Read.trace Expr.unplaced) (value table us) :=
  view_expression h table _

/-! ## Declarations -/

section Declarations

variable {ts us : List Token}

theorem view_declared (line line' : Nat) (result : Except Conflict ShapeTable) :
    view id (declared line result) = view id (declared line' result) := by
  cases result <;> rfl

theorem view_declaredName (h : SameSymbols ts us) (fault : GrammarFault) :
    view (Read.trace Prod.fst) (declaredName fault ts) =
      view (Read.trace Prod.fst) (declaredName fault us) := by
  unfold declaredName
  rcases next?_cases_of_same h with
    ⟨s, p, q, rest, rest', hr, hr', hrest, hts, hus⟩ | ⟨hts, hus⟩
  · rw [hts, hus]
    cases s with
    | name n => exact view_read rfl hrest
    | _ => rfl
  · rw [hts, hus]
    rfl

/-- A type is found at the front of both sequences, or of none. -/
theorem variableType?_cases_of_same (h : SameSymbols ts us) :
    (∃ type p q rest rest' hr hr', SameSymbols rest rest' ∧
      variableType? ts = some ⟨(type, p), rest, hr⟩ ∧
      variableType? us = some ⟨(type, q), rest', hr'⟩) ∨
    variableType? ts = none ∧ variableType? us = none := by
  unfold variableType?
  rcases next?_cases_of_same h with
    ⟨s, p, q, rest, rest', hr, hr', hrest, hts, hus⟩ | ⟨hts, hus⟩
  · rw [hts, hus]
    cases s with
    | keyword word =>
      cases word with
      | type type =>
        dsimp only
        by_cases hvoid : type = .void
        · rw [if_pos hvoid, if_pos hvoid]
          exact .inr ⟨rfl, rfl⟩
        · rw [if_neg hvoid, if_neg hvoid]
          exact .inl ⟨type, p, q, rest, rest', hr, hr', hrest, rfl, rfl⟩
      | _ => exact .inr ⟨rfl, rfl⟩
    | _ => exact .inr ⟨rfl, rfl⟩
  · rw [hts, hus]
    exact .inr ⟨rfl, rfl⟩

theorem view_parameters {ts us : List Token} (h : SameSymbols ts us) (table : ShapeTable) :
    view (Read.trace id) (parameters table ts) = view (Read.trace id) (parameters table us) := by
  rw [parameters, parameters]
  rcases variableType?_cases_of_same h with
    ⟨type, p, q, rest, rest', hr, hr', hrest, hts, hus⟩ | ⟨hts, hus⟩
  · rw [hts, hus]
    refine view_bind (view_declaredName hrest _) (Read.forall_of_trace ?_)
    intro n n' more more' hm _ hname hmore
    obtain ⟨n, line⟩ := n
    obtain ⟨n', line'⟩ := n'
    cases hname
    refine view_bind (view_declared line line' _) ?_
    intro table table' htable
    cases htable
    dsimp only
    rcases accept_cases_of_same hmore (.punct .comma) with
      ⟨last, last', hl, hl', hlast, hts, hus⟩ | ⟨hts, hus⟩
    · rw [hts, hus]
      have hlt := ((hr.andThen hm).andThen hl).length_lt
      refine view_bind (view_parameters hlast table) (Read.forall_of_trace ?_)
      intro params params' final final' _ _ hparams hfinal
      cases hparams
      exact view_read rfl hfinal
    · rw [hts, hus]
      exact view_read rfl hmore
  · rw [hts, hus, h.symbol_eq]
    rfl
termination_by ts.length

theorem noParameters?_cases_of_same (h : SameSymbols ts us) :
    (∃ rest rest' hr hr', SameSymbols rest rest' ∧ noParameters? ts = some ⟨(), rest, hr⟩ ∧
      noParameters? us = some ⟨(), rest', hr'⟩) ∨
    noParameters? ts = none ∧ noParameters? us = none := by
  unfold noParameters?
  rw [h.symbol_eq]
  by_cases hclose : symbol us = .punct .closeParen
  · rw [if_pos hclose, if_pos hclose]
    exact .inl ⟨ts, us, _, _, h, rfl, rfl⟩
  · rw [if_neg hclose, if_neg hclose]
    rcases accept_cases_of_same h (.keyword (.type .void)) with
      ⟨rest, rest', hr, hr', hrest, hts, hus⟩ | ⟨hts, hus⟩
    · rw [hts, hus]
      dsimp only
      rw [hrest.symbol_eq]
      by_cases hnext : symbol rest' = .punct .closeParen
      · rw [if_pos hnext, if_pos hnext]
        exact .inl ⟨rest, rest', _, _, hrest, rfl, rfl⟩
      · rw [if_neg hnext, if_neg hnext]
        exact .inr ⟨rfl, rfl⟩
    · rw [hts, hus]
      exact .inr ⟨rfl, rfl⟩

theorem view_parameterList (h : SameSymbols ts us) (table : ShapeTable) :
    view (Pass.trace id) (parameterList table ts) =
      view (Pass.trace id) (parameterList table us) := by
  unfold parameterList
  rcases noParameters?_cases_of_same h with
    ⟨rest, rest', hr, hr', hrest, hts, hus⟩ | ⟨hts, hus⟩
  · rw [hts, hus]
    exact view_pass rfl hrest
  · rw [hts, hus]
    refine view_bind (view_parameters h table) (Read.forall_of_trace ?_)
    intro params params' rest rest' _ _ hparams hrest
    exact view_pass hparams hrest

theorem view_arraySize (h : SameSymbols ts us) :
    view (Read.trace id) (arraySize ts) = view (Read.trace id) (arraySize us) := by
  unfold arraySize
  rcases next?_cases_of_same h with
    ⟨s, p, q, rest, rest', hr, hr', hrest, hts, hus⟩ | ⟨hts, hus⟩
  · rw [hts, hus]
    cases s with
    | number text =>
      dsimp only
      cases unsigned64? text with
      | none => rfl
      | some size => exact view_read rfl hrest
    | _ => rfl
  · rw [hts, hus]
    rfl

theorem view_plainElement (h : SameSymbols ts us) :
    view (Read.trace id) (plainElement ts) = view (Read.trace id) (plainElement us) := by
  unfold plainElement
  rw [h.symbol_eq]
  rcases next?_cases_of_same h with
    ⟨s, p, q, rest, rest', hr, hr', hrest, hts, hus⟩ | ⟨hts, hus⟩
  · rw [hts, hus]
    cases s with
    | number text => exact view_read rfl hrest
    | character c => exact view_read rfl hrest
    | name n => exact view_read rfl hrest
    | _ => rfl
  · rw [hts, hus]
    rfl

theorem view_negatedElement (h : SameSymbols ts us) :
    view (Read.trace id) (negatedElement ts) = view (Read.trace id) (negatedElement us) := by
  unfold negatedElement
  rw [h.symbol_eq]
  rcases next?_cases_of_same h with
    ⟨s, p, q, rest, rest', hr, hr', hrest, hts, hus⟩ | ⟨hts, hus⟩
  · rw [hts, hus]
    cases s with
    | number text => exact view_read rfl hrest
    | _ => rfl
  · rw [hts, hus]
    rfl

theorem view_element (h : SameSymbols ts us) :
    view (Read.trace id) (element ts) = view (Read.trace id) (element us) := by
  unfold element
  rcases accept_cases_of_same h (.operator "-") with
    ⟨rest, rest', hr, hr', hrest, hts, hus⟩ | ⟨hts, hus⟩
  · rw [hts, hus]
    refine view_bind (view_negatedElement hrest) (Read.forall_of_trace ?_)
    intro e e' more more' _ _ he hmore
    exact view_read he hmore
  · rw [hts, hus]
    exact view_plainElement h

theorem view_elements {ts us : List Token} (h : SameSymbols ts us) :
    view (Read.trace id) (elements ts) = view (Read.trace id) (elements us) := by
  rw [elements, elements]
  refine view_bind (view_element h) (Read.forall_of_trace ?_)
  intro e e' rest rest' hr _ he hrest
  dsimp only
  rcases accept_cases_of_same hrest (.punct .comma) with
    ⟨more, more', hm, hm', hmore, hts, hus⟩ | ⟨hts, hus⟩
  · rw [hts, hus]
    have hlt := (hr.andThen hm).length_lt
    refine view_bind (view_elements hmore) (Read.forall_of_trace ?_)
    intro es es' last last' _ _ hes hlast
    cases he
    cases hes
    exact view_read rfl hlast
  · rw [hts, hus]
    exact view_read (congrArg (fun e => [e]) he) hrest
termination_by ts.length

theorem view_elementList (h : SameSymbols ts us) :
    view (Read.trace id) (elementList ts) = view (Read.trace id) (elementList us) := by
  unfold elementList
  refine view_bind (view_expect h _ _) (Read.forall_of_trace ?_)
  intro _ _ rest rest' _ _ _ hrest
  dsimp only
  rcases accept_cases_of_same hrest (.punct .closeBrace) with
    ⟨more, more', hm, hm', hmore, hts, hus⟩ | ⟨hts, hus⟩
  · rw [hts, hus]
    exact view_read rfl hmore
  · rw [hts, hus]
    refine view_bind (view_elements hrest) (Read.forall_of_trace ?_)
    intro es es' more more' _ _ hes hmore
    refine view_bind (view_expect hmore _ _) (Read.forall_of_trace ?_)
    intro _ _ last last' _ _ _ hlast
    exact view_read hes hlast

theorem view_arrayForm (h : SameSymbols ts us) (table : ShapeTable) (n : String)
    (line line' : Nat) :
    view (Read.trace id) (arrayForm table n line ts) =
      view (Read.trace id) (arrayForm table n line' us) := by
  unfold arrayForm
  refine view_bind (view_arraySize h) (Read.forall_of_trace ?_)
  intro size size' rest rest' _ _ hsize hrest
  cases hsize
  refine view_bind (view_expect hrest _ _) (Read.forall_of_trace ?_)
  intro _ _ more more' _ _ _ hmore
  refine view_bind (view_declared line line' _) ?_
  intro table table' htable
  cases htable
  dsimp only
  rcases accept_cases_of_same hmore (.operator "=") with
    ⟨last, last', hl, hl', hlast, hts, hus⟩ | ⟨hts, hus⟩
  · rw [hts, hus]
    refine view_bind (view_elementList hlast) (Read.forall_of_trace ?_)
    intro es es' final final' _ _ hes hfinal
    cases hes
    exact view_read rfl hfinal
  · rw [hts, hus]
    exact view_read rfl hmore

theorem view_form (h : SameSymbols ts us) (table : ShapeTable) (n : String) (line line' : Nat) :
    view (Pass.trace (Prod.map Form.unplaced id)) (form table n line ts) =
      view (Pass.trace (Prod.map Form.unplaced id)) (form table n line' us) := by
  unfold form
  rcases accept_cases_of_same h (.punct .openBracket) with
    ⟨rest, rest', hr, hr', hrest, hts, hus⟩ | ⟨hts, hus⟩
  · rw [hts, hus]
    refine view_bind (view_arrayForm hrest table n line line') (Read.forall_of_trace ?_)
    intro form form' more more' _ _ hform hmore
    cases hform
    exact view_pass rfl hmore
  · rw [hts, hus]
    refine view_bind (view_declared line line' _) ?_
    intro table table' htable
    cases htable
    dsimp only
    rcases accept_cases_of_same h (.operator "=") with
      ⟨rest, rest', hr, hr', hrest, hts, hus⟩ | ⟨hts, hus⟩
    · rw [hts, hus]
      refine view_bind (view_value hrest table) (Read.forall_of_trace ?_)
      intro e e' more more' _ _ he hmore
      have hform : Form.unplaced (.scalar (some e)) = Form.unplaced (.scalar (some e')) :=
        congrArg (fun e => Form.scalar (some e)) he
      exact view_pass (Prod.ext hform rfl) hmore
    · rw [hts, hus]
      exact view_pass rfl h

theorem view_declaration (h : SameSymbols ts us) (table : ShapeTable) (type : ScalarType)
    (p q : Position) :
    view (Read.trace (Prod.map Declaration.unplaced id)) (declaration table type p ts) =
      view (Read.trace (Prod.map Declaration.unplaced id)) (declaration table type q us) := by
  unfold declaration
  refine view_bind (view_declaredName h _) (Read.forall_of_trace ?_)
  intro n n' rest rest' _ _ hname hrest
  obtain ⟨n, line⟩ := n
  obtain ⟨n', line'⟩ := n'
  cases hname
  refine view_bind (view_form hrest table n line line') (Pass.forall_of_trace ?_)
  intro form form' more more' _ _ hform hmore
  obtain ⟨hform, htable⟩ := Prod.mk.inj hform
  refine view_bind (view_expect hmore _ _) (Read.forall_of_trace ?_)
  intro _ _ last last' _ _ _ hlast
  have hdeclaration := congrArg (fun form => Declaration.mk n type form default) hform
  exact view_read (Prod.ext hdeclaration htable) hlast

end Declarations

/-! ## Loop headers -/

/-- The header of a `for` loop without positions. -/
def ForHeader.unplaced (header : ForHeader) : ForHeader :=
  ⟨header.start.map ForStart.unplaced, header.condition.unplaced,
    header.increment.map Assignment.unplaced⟩

section Headers

variable {ts us : List Token}

theorem assignedName?_cases_of_same (h : SameSymbols ts us) :
    (∃ n p q rest rest' hr hr', SameSymbols rest rest' ∧
      assignedName? ts = some ⟨(n, p), rest, hr⟩ ∧
      assignedName? us = some ⟨(n, q), rest', hr'⟩) ∨
    assignedName? ts = none ∧ assignedName? us = none := by
  unfold assignedName?
  rcases next?_cases_of_same h with
    ⟨s, p, q, rest, rest', hr, hr', hrest, hts, hus⟩ | ⟨hts, hus⟩
  · rw [hts, hus]
    cases s with
    | name n =>
      dsimp only
      rcases accept_cases_of_same hrest (.operator "=") with
        ⟨more, more', hm, hm', hmore, hts, hus⟩ | ⟨hts, hus⟩
      · rw [hts, hus]
        exact .inl ⟨n, p, q, more, more', _, _, hmore, rfl, rfl⟩
      · rw [hts, hus]
        exact .inr ⟨rfl, rfl⟩
    | _ => exact .inr ⟨rfl, rfl⟩
  · rw [hts, hus]
    exact .inr ⟨rfl, rfl⟩

theorem step?_cases_of_same (h : SameSymbols ts us) :
    (∃ step rest rest' hr hr', SameSymbols rest rest' ∧ step? ts = some ⟨step, rest, hr⟩ ∧
      step? us = some ⟨step, rest', hr'⟩) ∨ step? ts = none ∧ step? us = none := by
  unfold step?
  rcases next?_cases_of_same h with
    ⟨s, p, q, rest, rest', hr, hr', hrest, hts, hus⟩ | ⟨hts, hus⟩
  · rw [hts, hus]
    dsimp only
    rcases next?_cases_of_same hrest with
      ⟨s', p', q', more, more', hm, hm', hmore, hts, hus⟩ | ⟨hts, hus⟩
    · rw [hts, hus]
      dsimp only
      cases stepOf? s s' with
      | none => exact .inr ⟨rfl, rfl⟩
      | some step => exact .inl ⟨step, more, more', _, _, hmore, rfl, rfl⟩
    · rw [hts, hus]
      exact .inr ⟨rfl, rfl⟩
  · rw [hts, hus]
    exact .inr ⟨rfl, rfl⟩

theorem view_forStart (h : SameSymbols ts us) (table : ShapeTable) :
    view (Pass.trace (Prod.map (Option.map ForStart.unplaced) id)) (forStart table ts).outcome =
      view (Pass.trace (Prod.map (Option.map ForStart.unplaced) id))
        (forStart table us).outcome := by
  unfold forStart
  rcases accept_cases_of_same h (.punct .semicolon) with
    ⟨rest, rest', hr, hr', hrest, hts, hus⟩ | ⟨hts, hus⟩
  · rw [hts, hus]
    exact view_pass rfl hrest
  rw [hts, hus]
  dsimp only
  rcases assignedName?_cases_of_same h with
    ⟨n, p, q, rest, rest', hr, hr', hrest, hts, hus⟩ | ⟨hts, hus⟩
  · rw [hts, hus]
    refine view_outcome_bind (view_value hrest table) (Read.forall_of_trace ?_)
    intro e e' more more' _ _ he hmore
    refine view_outcome_bind (view_expect hmore _ _) (Read.forall_of_trace ?_)
    intro _ _ last last' _ _ _ hlast
    have hstart := congrArg (fun e => some (ForStart.assign ⟨.name n, e, default⟩)) he
    exact view_pass (Prod.ext hstart rfl) hlast
  rw [hts, hus]
  dsimp only
  rcases variableType?_cases_of_same h with
    ⟨type, p, q, rest, rest', hr, hr', hrest, hts, hus⟩ | ⟨hts, hus⟩
  · rw [hts, hus]
    refine view_outcome_bind (view_declaration hrest table type p q) (Read.forall_of_trace ?_)
    intro d d' more more' _ _ hd hmore
    obtain ⟨hdeclaration, htable⟩ := Prod.mk.inj hd
    have hstart := congrArg (fun d => some (ForStart.declare d)) hdeclaration
    exact view_pass (Prod.ext hstart htable) hmore
  · rw [hts, hus]
    exact view_pass rfl h.afterSemicolon

theorem view_forCondition (h : SameSymbols ts us) (table : ShapeTable) :
    view (Read.trace Expr.unplaced) (forCondition table ts) =
      view (Read.trace Expr.unplaced) (forCondition table us) := by
  unfold forCondition
  rcases accept_cases_of_same h (.punct .semicolon) with
    ⟨rest, rest', hr, hr', hrest, hts, hus⟩ | ⟨hts, hus⟩
  · rw [hts, hus]
    exact view_read rfl hrest
  · rw [hts, hus]
    refine view_bind (view_value h table) (Read.forall_of_trace ?_)
    intro e e' rest rest' _ _ he hrest
    refine view_bind (view_expect hrest _ _) (Read.forall_of_trace ?_)
    intro _ _ last last' _ _ _ hlast
    exact view_read he hlast

theorem view_forIncrement (h : SameSymbols ts us) (table : ShapeTable) :
    view (Pass.trace (Option.map Assignment.unplaced)) (forIncrement table ts).outcome =
      view (Pass.trace (Option.map Assignment.unplaced)) (forIncrement table us).outcome := by
  unfold forIncrement
  rw [h.symbol_eq]
  split
  · exact view_pass rfl h
  rcases step?_cases_of_same h with ⟨step, rest, rest', hr, hr', hrest, hts, hus⟩ | ⟨hts, hus⟩
  · rw [hts, hus]
    exact view_pass rfl hrest
  rw [hts, hus]
  dsimp only
  rcases assignedName?_cases_of_same h with
    ⟨n, p, q, rest, rest', hr, hr', hrest, hts, hus⟩ | ⟨hts, hus⟩
  · rw [hts, hus]
    refine view_outcome_bind (view_value hrest table) (Read.forall_of_trace ?_)
    intro e e' more more' _ _ he hmore
    have hincrement := congrArg (fun e => some (Assignment.mk (.name n) e default)) he
    exact view_pass hincrement hmore
  · rw [hts, hus]
    exact view_pass rfl (h.endOfHeader 0)

theorem view_forHeader (h : SameSymbols ts us) (table : ShapeTable) :
    view (Read.trace (Prod.map ForHeader.unplaced id)) (forHeader table ts).outcome =
      view (Read.trace (Prod.map ForHeader.unplaced id)) (forHeader table us).outcome := by
  unfold forHeader
  refine view_outcome_bind (view_expect h _ _) (Read.forall_of_trace ?_)
  intro _ _ ts us _ _ _ h
  refine view_outcome_bind (view_forStart h table) (Pass.forall_of_trace ?_)
  intro start start' ts us _ _ hpair h
  obtain ⟨start, table⟩ := start
  obtain ⟨start', table'⟩ := start'
  obtain ⟨hstart, htable⟩ := Prod.mk.inj hpair
  cases htable
  refine view_outcome_bind (view_forCondition h table) (Read.forall_of_trace ?_)
  intro e e' ts us _ _ he h
  refine view_outcome_bind (view_forIncrement h table) (Pass.forall_of_trace ?_)
  intro increment increment' ts us _ _ hincrement h
  refine view_outcome_bind (view_expect h _ _) (Read.forall_of_trace ?_)
  intro _ _ ts us _ _ _ h
  refine view_outcome_bind (view_expect h _ _) (Read.forall_of_trace ?_)
  intro _ _ ts us _ _ _ h
  refine view_read (Prod.ext ?_ rfl) h
  simp only [Prod.map, ForHeader.unplaced, hstart, he, hincrement]

end Headers

/-! ## Simple statements -/

section Simple

variable {ts us : List Token}

theorem view_leaveOut (h : SameSymbols ts us) (table : ShapeTable) (n n' : Notice) :
    view (Pass.trace (Prod.map (Option.map Stmt.unplaced) id)) (leaveOut table n ts).outcome =
      view (Pass.trace (Prod.map (Option.map Stmt.unplaced) id))
        (leaveOut table n' us).outcome :=
  view_pass rfl h.afterStatement

theorem view_target (h : SameSymbols ts us) (table : ShapeTable) (n : String) :
    view (Pass.trace Target.unplaced) (target table n ts) =
      view (Pass.trace Target.unplaced) (target table n us) := by
  unfold target
  rcases accept_cases_of_same h (.punct .openBracket) with
    ⟨rest, rest', hr, hr', hrest, hts, hus⟩ | ⟨hts, hus⟩
  · rw [hts, hus]
    refine view_bind (view_index hrest table n _ _) (Read.forall_of_trace ?_)
    intro i i' more more' _ _ hi hmore
    obtain ⟨hindex, htext⟩ := Prod.mk.inj hi
    refine view_pass ?_ hmore
    rw [Target.unplaced, Target.unplaced, hindex, show i.2 = i'.2 from htext]
  · rw [hts, hus]
    exact view_pass rfl h

theorem view_assignment (h : SameSymbols ts us) (table : ShapeTable) (n : String)
    (p q : Position) :
    view (Pass.trace (Prod.map (Option.map Stmt.unplaced) id))
        (assignment table n p ts).outcome =
      view (Pass.trace (Prod.map (Option.map Stmt.unplaced) id))
        (assignment table n q us).outcome := by
  unfold assignment
  refine view_outcome_bind (view_target h table n) (Pass.forall_of_trace ?_)
  intro place place' rest rest' _ _ hplace hrest
  dsimp only
  rcases accept_cases_of_same hrest (.operator "=") with
    ⟨more, more', hm, hm', hmore, hts, hus⟩ | ⟨hts, hus⟩
  · rw [hts, hus]
    refine view_outcome_bind (view_value hmore table) (Read.forall_of_trace ?_)
    intro e e' last last' _ _ he hlast
    refine view_outcome_bind (view_expect hlast _ _) (Read.forall_of_trace ?_)
    intro _ _ final final' _ _ _ hfinal
    have hassign : (Assignment.mk place e p).unplaced = (Assignment.mk place' e' q).unplaced := by
      rw [Assignment.unplaced, Assignment.unplaced, hplace, he]
    exact view_pass (Prod.ext (congrArg (fun a => some (Stmt.assign a)) hassign) rfl) hfinal
  · rw [hts, hus]
    refine view_outcome_bind (view_leaveOut hrest table _ _) (Pass.forall_of_trace ?_)
    intro s s' last last' _ _ hs hlast
    exact view_pass hs hlast

theorem view_returned (h : SameSymbols ts us) (table : ShapeTable) (p q : Position) :
    view (Read.trace Stmt.unplaced) (returned table p ts) =
      view (Read.trace Stmt.unplaced) (returned table q us) := by
  unfold returned
  rcases accept_cases_of_same h (.punct .semicolon) with
    ⟨rest, rest', hr, hr', hrest, hts, hus⟩ | ⟨hts, hus⟩
  · rw [hts, hus]
    exact view_read rfl hrest
  · rw [hts, hus]
    refine view_bind (view_value h table) (Read.forall_of_trace ?_)
    intro e e' rest rest' _ _ he hrest
    refine view_bind (view_expect hrest _ _) (Read.forall_of_trace ?_)
    intro _ _ last last' _ _ _ hlast
    exact view_read (congrArg (fun e => Stmt.ret (some e) default) he) hlast

theorem view_jump (h : SameSymbols ts us) (inLoop : Bool) (j : Jump) (p q : Position) :
    view (Read.trace Stmt.unplaced) (jump inLoop j p ts) =
      view (Read.trace Stmt.unplaced) (jump inLoop j q us) := by
  unfold jump
  split
  · refine view_bind (view_expect h _ _) (Read.forall_of_trace ?_)
    intro _ _ rest rest' _ _ _ hrest
    exact view_read rfl hrest
  · rfl

theorem view_condition (h : SameSymbols ts us) (before after : Place) (table : ShapeTable) :
    view (Read.trace Expr.unplaced) (condition before after table ts) =
      view (Read.trace Expr.unplaced) (condition before after table us) := by
  unfold condition
  refine view_bind (view_expect h _ _) (Read.forall_of_trace ?_)
  intro _ _ ts us _ _ _ h
  refine view_bind (view_value h table) (Read.forall_of_trace ?_)
  intro e e' ts us _ _ he h
  refine view_bind (view_expect h _ _) (Read.forall_of_trace ?_)
  intro _ _ ts us _ _ _ h
  refine view_bind (view_expect h _ _) (Read.forall_of_trace ?_)
  intro _ _ ts us _ _ _ h
  exact view_read he h

end Simple

/-! ## Compound statements -/

theorem unplaced_append (ss ss' : Block) :
    Block.unplaced (ss ++ ss') = Block.unplaced ss ++ Block.unplaced ss' := by
  induction ss with
  | nil => rfl
  | cons s ss ih => rw [List.cons_append, Block.unplaced, ih, Block.unplaced, List.cons_append]

theorem unplaced_toList {s s' : Option Stmt}
    (h : s.map Stmt.unplaced = s'.map Stmt.unplaced) :
    Block.unplaced s.toList = Block.unplaced s'.toList := by
  cases s with
  | none =>
    cases s' with
    | none => rfl
    | some s' => cases h
  | some s =>
    cases s' with
    | none => cases h
    | some s' => exact congrArg (fun s => [s]) (Option.some.inj h)

mutual

theorem view_block {ts us : List Token} (h : SameSymbols ts us) (place : Place) (inLoop : Bool)
    (depth : Nat) (table : ShapeTable) :
    view (Read.trace (Prod.map Block.unplaced id)) (block place inLoop depth table ts).outcome =
      view (Read.trace (Prod.map Block.unplaced id))
        (block place inLoop depth table us).outcome := by
  rw [block, block]
  rcases next?_cases_of_same h with
    ⟨s, p, q, rest, rest', hr, hr', hrest, hts, hus⟩ | ⟨hts, hus⟩
  · rw [hts, hus]
    have hlt := hr.length_lt
    dsimp only
    split
    · exact view_read rfl hrest
    · refine view_outcome_bind (view_block hrest place inLoop _ table) (Read.forall_of_trace ?_)
      intro body body' more more' _ _ hbody hmore
      exact view_read hbody hmore
    · refine view_outcome_bind (view_block hrest place inLoop _ table) (Read.forall_of_trace ?_)
      intro body body' more more' _ _ hbody hmore
      exact view_read hbody hmore
    · refine view_outcome_bind (view_statement hrest inLoop table s p q) (Pass.forall_of_trace ?_)
      intro first first' more more' hm _ hpair hmore
      have hlt' := (hr.andPass hm).length_lt
      obtain ⟨first, table⟩ := first
      obtain ⟨first', table'⟩ := first'
      obtain ⟨hfirst, htable⟩ := Prod.mk.inj hpair
      cases htable
      refine view_outcome_bind (view_block hmore place inLoop _ table) (Read.forall_of_trace ?_)
      intro body body' last last' _ _ hpair hlast
      obtain ⟨hbody, htable⟩ := Prod.mk.inj hpair
      refine view_read (Prod.ext ?_ htable) hlast
      show Block.unplaced _ = Block.unplaced _
      rw [unplaced_append, unplaced_append, unplaced_toList hfirst, hbody]
  · rw [hts, hus]
    rfl
termination_by 3 * ts.length

theorem view_statement {ts us : List Token} (h : SameSymbols ts us) (inLoop : Bool)
    (table : ShapeTable) (s : Symbol) (p q : Position) :
    view (Pass.trace (Prod.map (Option.map Stmt.unplaced) id))
        (statement inLoop table ⟨s, p⟩ ts).outcome =
      view (Pass.trace (Prod.map (Option.map Stmt.unplaced) id))
        (statement inLoop table ⟨s, q⟩ us).outcome := by
  rw [statement, statement]
  dsimp only
  split
  · exact view_leaveOut h table _ _
  · next type _ =>
    refine view_outcome_bind (view_declaration h table type p q) (Read.forall_of_trace ?_)
    intro d d' rest rest' _ _ hpair hrest
    obtain ⟨hdeclaration, htable⟩ := Prod.mk.inj hpair
    exact view_pass (Prod.ext (congrArg (fun d => some (Stmt.declare d)) hdeclaration) htable) hrest
  · exact view_assignment h table _ p q
  · refine view_outcome_bind (view_returned h table p q) (Read.forall_of_trace ?_)
    intro s s' rest rest' _ _ hs hrest
    exact view_pass (Prod.ext (congrArg some hs) rfl) hrest
  · refine view_outcome_bind (view_condition h _ _ table) (Read.forall_of_trace ?_)
    intro e e' rest rest' hr _ he hrest
    have hlt := hr.length_lt
    refine view_outcome_bind (view_block hrest _ inLoop 0 table) (Read.forall_of_trace ?_)
    intro body body' more more' hm _ hpair hmore
    have hlt' : more.length < rest.length := hm.length_lt
    obtain ⟨body, table⟩ := body
    obtain ⟨body', table'⟩ := body'
    obtain ⟨hbody, htable⟩ := Prod.mk.inj hpair
    cases htable
    refine view_outcome_bind (view_alternative hmore inLoop table) (Pass.forall_of_trace ?_)
    intro otherwise otherwise' last last' _ _ hpair hlast
    obtain ⟨hotherwise, htable⟩ := Prod.mk.inj hpair
    refine view_pass (Prod.ext (congrArg some ?_) htable) hlast
    rw [Stmt.unplaced, Stmt.unplaced, he, hbody, hotherwise]
  · refine view_outcome_bind (view_condition h _ _ table) (Read.forall_of_trace ?_)
    intro e e' rest rest' hr _ he hrest
    have hlt := hr.length_lt
    refine view_outcome_bind (view_block hrest _ true 0 table) (Read.forall_of_trace ?_)
    intro body body' more more' _ _ hpair hmore
    obtain ⟨hbody, htable⟩ := Prod.mk.inj hpair
    refine view_pass (Prod.ext (congrArg some ?_) htable) hmore
    rw [Stmt.unplaced, Stmt.unplaced, he, hbody]
  · refine view_outcome_bind (view_forHeader h table) (Read.forall_of_trace ?_)
    intro header header' rest rest' hr _ hpair hrest
    have hlt := hr.length_lt
    obtain ⟨header, table⟩ := header
    obtain ⟨header', table'⟩ := header'
    obtain ⟨hheader, htable⟩ := Prod.mk.inj hpair
    cases htable
    obtain ⟨hstart, hcondition, hincrement⟩ := ForHeader.mk.inj hheader
    refine view_outcome_bind (view_block hrest _ true 0 table) (Read.forall_of_trace ?_)
    intro body body' more more' _ _ hpair hmore
    obtain ⟨hbody, htable⟩ := Prod.mk.inj hpair
    refine view_pass (Prod.ext (congrArg some ?_) htable) hmore
    rw [Stmt.unplaced, Stmt.unplaced, hstart, hcondition, hbody, hincrement]
  · refine view_outcome_bind (view_jump h inLoop _ p q) (Read.forall_of_trace ?_)
    intro s s' rest rest' _ _ hs hrest
    exact view_pass (Prod.ext (congrArg some hs) rfl) hrest
  · exact view_pass rfl h
  · exact view_leaveOut h table _ _
termination_by 3 * ts.length + 1

theorem view_alternative {ts us : List Token} (h : SameSymbols ts us) (inLoop : Bool)
    (table : ShapeTable) :
    view (Pass.trace (Prod.map Alternative.unplaced id)) (alternative inLoop table ts).outcome =
      view (Pass.trace (Prod.map Alternative.unplaced id))
        (alternative inLoop table us).outcome := by
  rw [alternative, alternative]
  rcases accept_cases_of_same h (.keyword .elseKw) with
    ⟨rest, rest', hr, hr', hrest, hts, hus⟩ | ⟨hts, hus⟩
  · rw [hts, hus]
    dsimp only
    rcases accept_cases_of_same hrest (.keyword .ifKw) with
      ⟨more, more', hm, hm', hmore, hts, hus⟩ | ⟨hts, hus⟩
    · rw [hts, hus]
      have hlt := (hr.andThen hm).length_lt
      refine view_outcome_bind (view_condition hmore _ _ table) (Read.forall_of_trace ?_)
      intro e e' inner inner' hi _ he hinner
      have hlt' := hi.length_lt
      refine view_outcome_bind (view_block hinner _ inLoop 0 table) (Read.forall_of_trace ?_)
      intro body body' next next' hn _ hpair hnext
      have hlt'' : next.length < inner.length := hn.length_lt
      obtain ⟨body, table⟩ := body
      obtain ⟨body', table'⟩ := body'
      obtain ⟨hbody, htable⟩ := Prod.mk.inj hpair
      cases htable
      refine view_outcome_bind (view_alternative hnext inLoop table) (Pass.forall_of_trace ?_)
      intro otherwise otherwise' last last' _ _ hpair hlast
      obtain ⟨hotherwise, htable⟩ := Prod.mk.inj hpair
      refine view_pass (Prod.ext ?_ htable) hlast
      show Alternative.unplaced _ = Alternative.unplaced _
      rw [Alternative.unplaced, Alternative.unplaced, he, hbody, hotherwise]
    · rw [hts, hus]
      refine view_outcome_bind (view_expect hrest _ _) (Read.forall_of_trace ?_)
      intro _ _ more more' hm _ _ hmore
      have hlt := (hr.andThen hm).length_lt
      refine view_outcome_bind (view_block hmore _ inLoop 0 table) (Read.forall_of_trace ?_)
      intro body body' last last' _ _ hpair hlast
      obtain ⟨hbody, htable⟩ := Prod.mk.inj hpair
      refine view_pass (Prod.ext ?_ htable) hlast
      show Alternative.unplaced _ = Alternative.unplaced _
      rw [Alternative.unplaced, Alternative.unplaced, hbody]
  · rw [hts, hus]
    exact view_pass rfl h
termination_by 3 * ts.length

end

/-! ## Programs -/

theorem view_function {ts us : List Token} (h : SameSymbols ts us) (returns : ScalarType)
    (n : String) (p q : Position) :
    view (Read.trace Function.unplaced) (function returns n p ts).outcome =
      view (Read.trace Function.unplaced) (function returns n q us).outcome := by
  unfold function
  refine view_outcome_bind (view_parameterList h _) (Pass.forall_of_trace ?_)
  intro params params' ts us _ _ hparams h
  cases hparams
  refine view_outcome_bind (view_expect h _ _) (Read.forall_of_trace ?_)
  intro _ _ ts us _ _ _ h
  refine view_outcome_bind (view_expect h _ _) (Read.forall_of_trace ?_)
  intro _ _ ts us _ _ _ h
  refine view_outcome_bind (view_block h _ false 0 _) (Read.forall_of_trace ?_)
  intro body body' ts us _ _ hpair h
  obtain ⟨hbody, -⟩ := Prod.mk.inj hpair
  exact view_read (congrArg (fun body => Function.mk n returns _ body default) hbody) h

theorem view_functions {ts us : List Token} (h : SameSymbols ts us) :
    view (List.map Function.unplaced) (functions ts).outcome =
      view (List.map Function.unplaced) (functions us).outcome := by
  rw [functions, functions]
  rcases next?_cases_of_same h with
    ⟨s, p, q, rest, rest', hr, hr', hrest, hts, hus⟩ | ⟨hts, hus⟩
  · rw [hts, hus]
    have hlt := hr.length_lt
    dsimp only
    split
    · next returns =>
      rcases next?_cases_of_same hrest with
        ⟨s, p, q, more, more', hm, hm', hmore, hts, hus⟩ | ⟨hts, hus⟩
      · rw [hts, hus]
        cases s with
        | name n =>
          dsimp only
          rcases accept_cases_of_same hmore (.punct .openParen) with
            ⟨inner, inner', hi, hi', hinner, hts, hus⟩ | ⟨hts, hus⟩
          · rw [hts, hus]
            refine view_outcome_bind (view_function hinner returns n p q)
              (Read.forall_of_trace ?_)
            intro f f' last last' hl _ hf hlast
            have hlt' := ((hm.andThen hi).andThen hl).length_lt
            refine view_outcome_bind (show view id _ = view id _ from rfl) fun _ _ _ => ?_
            refine view_outcome_bind (view_functions hlast) ?_
            intro fs fs' hfs
            exact congrArg Except.ok (by rw [List.map_cons, List.map_cons, hf, hfs])
          · rw [hts, hus]
            have hle := length_afterSemicolon_le rest
            exact view_functions hrest.afterSemicolon
        | _ => exact view_functions hrest
      · rw [hts, hus]
        exact view_functions hrest
    · exact view_functions hrest
  · rw [hts, hus]
termination_by ts.length

end Parse

end ClockedC
