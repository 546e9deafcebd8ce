import ClockedC.Parse.Program
import ClockedC.Proofs.ExprParser
import ClockedC.Proofs.SeenTokens

/-!
# Parsers on tokens that look alike

No parser looks behind the first end of the source, and none makes anything of a string but a
message about it. So two runs of a parser on token sequences that look alike agree: both succeed,
with the same value, or both fail, with the same error up to the texts of strings, and so it is with
the notices.

* `ExprAt.plain`: there is neither a string nor an end in an expression, so that the text of an
  index is the same in both runs once the index has been read.
* `Parse.agrees_value`, `Parse.agrees_block` and `Parse.agrees_functions`: the parsers agree.
-/

namespace ClockedC

variable {f : String → String}

/-! ## Strings and ends are no part of expressions -/

/-- Whether a symbol is neither a string nor the end of the source. -/
def Symbol.isPlain : Symbol → Bool
  | .string _ | .eof => false
  | _ => true

theorem Symbol.blur_of_isPlain {s : Symbol} (h : s.isPlain = true) : s.blur f = s := by
  cases s with
  | string text => cases h
  | _ => rfl

mutual

theorem ExprAt.plain : ∀ {k : Nat} {ts : List Token} {e : Expr}, ExprAt k ts e →
    ts.all (·.symbol.isPlain) = true
  | _, _, _, .tighter _ h => h.plain
  | _, _, _, .binary _ left right => by
    rw [List.all_append, left.plain, List.all_cons, right.plain]
    rfl
  | _, _, _, .unary operand => by
    rw [List.all_cons, operand.plain]
    rfl
  | _, _, _, .parens inner => by
    rw [List.all_append, List.all_cons, inner.plain]
    rfl
  | _, _, _, .number | _, _, _, .character | _, _, _, .name | _, _, _, .constant => rfl
  | _, _, _, .call args => by
    rw [List.all_append, List.all_cons, List.all_cons, args.plain]
    rfl
  | _, _, _, .element index => by
    rw [List.all_append, List.all_cons, List.all_cons, index.plain]
    rfl

theorem ArgumentsAt.plain : ∀ {ts : List Token} {es : List Expr}, ArgumentsAt ts es →
    ts.all (·.symbol.isPlain) = true
  | _, _, .one h => h.plain
  | _, _, .more first others => by
    rw [List.all_append, first.plain, List.all_cons, others.plain]
    rfl

end

/-- All can be seen of plain tokens. -/
theorem seen_append {ts : List Token} (h : ts.all (·.symbol.isPlain) = true) (rest : List Token) :
    seen f (ts ++ rest) = ts ++ seen f rest := by
  induction ts with
  | nil => rfl
  | cons t ts ih =>
    rw [List.all_cons, Bool.and_eq_true] at h
    obtain ⟨ht, hts⟩ := h
    have heof : t.symbol ≠ .eof := by
      intro heof
      rw [heof] at ht
      cases ht
    rw [List.cons_append, seen_of_ne heof, ih hts, Token.blur, Symbol.blur_of_isPlain ht]
    rfl

namespace Parse

open Cursor

/-! ## Expressions -/

theorem agrees_expect {ts us : List Token} (h : Alike f ts us) (mark : Punct) (place : Place) :
    Agrees f (SameRead f) (expect mark place ts) (expect mark place us) := by
  unfold expect
  rw [h.line_eq]
  rcases h.accept_cases (.punct mark) (by simp) with
    ⟨rest, rest', hr, hr', hrest, hts, hus⟩ | ⟨hts, hus⟩
  · rw [hts, hus]
    exact .read hrest
  · rw [hts, hus]
    exact .error rfl

theorem literalIndex?_blur (symbols : List Symbol) :
    literalIndex? (symbols.map (Symbol.blur f)) = literalIndex? symbols := by
  rcases symbols with _ | ⟨first, _ | ⟨second, _ | ⟨third, others⟩⟩⟩
  · rfl
  · cases first <;> rfl
  · cases first with
    | operator spelling =>
      by_cases hminus : spelling = "-"
      · subst hminus
        cases second <;> rfl
      · simp [literalIndex?, Symbol.blur, hminus]
    | _ => rfl
  · simp [literalIndex?]

/-- An index is looked over with the same outcome, but for the texts of strings in its text. -/
theorem agrees_indexText {ts us : List Token} (h : Alike f ts us) (table : ShapeTable)
    (base : String) (line : Nat) :
    Agrees f (fun _ _ => True) (indexText table base line ts) (indexText table base line us) := by
  have hinside : (insideBrackets 0 ts).map (List.map (Token.blur f)) =
      (insideBrackets 0 us).map (List.map (Token.blur f)) := by
    rw [← insideBrackets_seen, h, insideBrackets_seen]
  unfold indexText
  cases hts : insideBrackets 0 ts with
  | none =>
    rw [hts, Option.map_none] at hinside
    rw [Option.map_eq_none_iff.1 hinside.symm, h.line_eq]
    exact .error rfl
  | some inside =>
    rw [hts, Option.map_some] at hinside
    obtain ⟨inside', hus, hblur⟩ := Option.map_eq_some_iff.1 hinside.symm
    rw [hus]
    cases inside with
    | nil =>
      cases List.map_eq_nil_iff.1 hblur
      exact .error rfl
    | cons t inside =>
      cases inside' with
      | nil => cases hblur
      | cons u inside' =>
        have hliteral : literalIndex? ((u :: inside').map Token.symbol) =
            literalIndex? ((t :: inside).map Token.symbol) := by
          have hsymbols : ((u :: inside').map Token.symbol).map (Symbol.blur f) =
              ((t :: inside).map Token.symbol).map (Symbol.blur f) := by
            have hmap := congrArg (List.map Token.symbol) hblur
            rw [List.map_map, List.map_map] at hmap ⊢
            exact hmap
          rw [← literalIndex?_blur ((u :: inside').map Token.symbol), hsymbols,
            literalIndex?_blur]
        dsimp only
        rw [hliteral]
        split
        · split
          · exact .ok trivial
          · exact .error rfl
        · exact .ok trivial

/-- The text of an index that was read in two runs is the same. -/
theorem text_eq_of_alike {ts us rest rest' : List Token} (h : Alike f ts us)
    (hrest : Alike f rest rest') {table : ShapeTable} {base : String} {line : Nat} {i : Expr}
    {text text' : String} (hread : Reads (index table base line ts) (i, text) rest)
    (hread' : Reads (index table base line us) (i, text') rest') : text = text' := by
  obtain ⟨taken, q, rfl, hat, rfl, -⟩ := reads_index_iff.1 hread
  obtain ⟨taken', q', rfl, hat', rfl, -⟩ := reads_index_iff.1 hread'
  rw [Alike, seen_append hat.plain, seen_append hat'.plain] at h
  have hclose : (seen f (⟨.punct .closeBracket, q⟩ :: rest)).length =
      (seen f (⟨.punct .closeBracket, q'⟩ :: rest')).length := by
    rw [seen_of_ne (by simp), seen_of_ne (by simp), hrest]
    rfl
  rw [(List.append_inj' h hclose).1]

mutual

theorem agrees_operand {ts us : List Token} (h : Alike f ts us) (table : ShapeTable) :
    Agrees f (SameRead f) (operand table ts) (operand table us) := by
  rw [operand, operand]
  rcases h.next?_cases with ⟨s, p, rest, rest', hr, hr', hrest, hts, hus⟩ |
    ⟨a, b, p, rest, rest', hr, hr', hab, hrest, hts, hus⟩ | ⟨hts, hus⟩
  · rw [hts, hus]
    have hlt := hr.length_lt
    dsimp only
    cases s with
    | operator spelling =>
      dsimp only
      cases UnaryOp.ofSpelling? spelling with
      | none => exact .error rfl
      | some op =>
        refine (agrees_operand hrest table).bindRead ?_
        intro e more more' _ _ hmore
        exact .read hmore
    | punct mark =>
      cases mark with
      | openParen =>
        refine (agrees_expression hrest table _).bindRead ?_
        intro e more more' _ _ hmore
        refine (agrees_expect hmore _ _).bindRead ?_
        intro _ last last' _ _ hlast
        exact .read hlast
      | _ => exact .error rfl
    | number text => exact .read hrest
    | character c => exact .read hrest
    | name n =>
      dsimp only
      rcases hrest.accept_cases (.punct .openParen) (by simp) with
        ⟨more, more', hm, hm', hmore, hts, hus⟩ | ⟨hts, hus⟩
      · rw [hts, hus]
        have hlt' := hm.length_lt
        refine (agrees_arguments hmore table n).bindRead ?_
        intro args last last' _ _ hlast
        exact .read hlast
      · rw [hts, hus]
        dsimp only
        rcases hrest.accept_cases (.punct .openBracket) (by simp) with
          ⟨more, more', hm, hm', hmore, hts, hus⟩ | ⟨hts, hus⟩
        · rw [hts, hus, hrest.line_eq]
          have hlt' := hm.length_lt
          refine (agrees_index hmore table n _).bindRead ?_
          intro i last last' _ _ hlast
          exact .read hlast
        · rw [hts, hus]
          exact .read hrest
    | _ => exact .error rfl
  · rw [hts, hus]
    exact .error (by simp [ParseError.blur, ParseError.grammar, ParseFault.blur,
      GrammarFault.blur, Symbol.blur, hab, Token.line])
  · rw [hts, hus, h.line_eq]
    exact .error rfl
termination_by 4 * ts.length

theorem agrees_expression {ts us : List Token} (h : Alike f ts us) (table : ShapeTable)
    (level : Nat) :
    Agrees f (SameRead f) (expression table level ts) (expression table level us) := by
  rw [expression, expression]
  refine (agrees_operand h table).bindRead ?_
  intro left rest rest' hr _ hrest
  have hlt := hr.length_lt
  refine (agrees_operations hrest table level left).bindPass ?_
  intro e more more' _ _ hmore
  exact .read hmore
termination_by 4 * ts.length + 1

theorem agrees_operations {ts us : List Token} (h : Alike f ts us) (table : ShapeTable)
    (level : Nat) (left : Expr) :
    Agrees f (SamePass f) (operations table level left ts) (operations table level left us) := by
  rw [operations, operations]
  rcases h.next?_cases with ⟨s, p, rest, rest', hr, hr', hrest, hts, hus⟩ |
    ⟨a, b, p, rest, rest', hr, hr', hab, hrest, hts, hus⟩ | ⟨hts, hus⟩
  · rw [hts, hus]
    have hlt := hr.length_lt
    dsimp only
    cases s.binary? with
    | none => exact .pass h
    | some op =>
      dsimp only
      rw [hrest.opensOperand_eq, hrest.line_eq]
      split
      · exact .pass h
      · split
        · refine (agrees_expression hrest table _).bindRead ?_
          intro right more more' hm _ hmore
          have hlt' := hm.length_lt
          refine (agrees_operations hmore table level _).bindPass ?_
          intro e last last' _ _ hlast
          exact .pass hlast
        · exact .error rfl
  · rw [hts, hus]
    exact .pass h
  · rw [hts, hus]
    exact .pass h
termination_by 4 * ts.length

theorem agrees_arguments {ts us : List Token} (h : Alike f ts us) (table : ShapeTable)
    (callee : String) :
    Agrees f (SameRead f) (arguments table callee ts) (arguments table callee us) := by
  rw [arguments, arguments]
  rcases h.accept_cases (.punct .closeParen) (by simp) with
    ⟨rest, rest', hr, hr', hrest, hts, hus⟩ | ⟨hts, hus⟩
  · rw [hts, hus]
    exact .read hrest
  · rw [hts, hus]
    refine (agrees_expressions h table).bindRead ?_
    intro args rest rest' _ _ hrest
    refine (agrees_expect hrest _ _).bindRead ?_
    intro _ last last' _ _ hlast
    exact .read hlast
termination_by 4 * ts.length + 3

theorem agrees_expressions {ts us : List Token} (h : Alike f ts us) (table : ShapeTable) :
    Agrees f (SameRead f) (expressions table ts) (expressions table us) := by
  rw [expressions, expressions]
  refine (agrees_expression h table _).bindRead ?_
  intro e rest rest' hr _ hrest
  dsimp only
  rcases hrest.accept_cases (.punct .comma) (by simp) with
    ⟨more, more', hm, hm', hmore, hts, hus⟩ | ⟨hts, hus⟩
  · rw [hts, hus]
    have hlt := (hr.andThen hm).length_lt
    refine (agrees_expressions hmore table).bindRead ?_
    intro es last last' _ _ hlast
    exact .read hlast
  · rw [hts, hus]
    exact .read hrest
termination_by 4 * ts.length + 2

theorem agrees_index {ts us : List Token} (h : Alike f ts us) (table : ShapeTable)
    (base : String) (line : Nat) :
    Agrees f (SameRead f) (index table base line ts) (index table base line us) := by
  have hindex : Agrees f (fun r r' => r.value.1 = r'.value.1 ∧ Alike f r.rest r'.rest)
      (index table base line ts) (index table base line us) := by
    rw [index, index]
    refine (agrees_indexText h table base line).bind fun text text' _ => ?_
    refine (agrees_expression h table _).bindRead ?_
    intro e rest rest' _ _ hrest
    refine (agrees_expect hrest _ _).bindRead ?_
    intro _ last last' _ _ hlast
    exact .ok ⟨rfl, hlast⟩
  generalize hx : index table base line ts = x at hindex
  generalize hy : index table base line us = y at hindex
  cases hindex with
  | error he => exact .error he
  | @ok r r' hsame =>
    obtain ⟨⟨i, text⟩, rest, hr⟩ := r
    obtain ⟨⟨i', text'⟩, rest', hr'⟩ := r'
    obtain ⟨hi, hrest⟩ := hsame
    cases hi
    cases text_eq_of_alike h hrest ⟨hr, hx⟩ ⟨hr', hy⟩
    exact .read hrest
termination_by 4 * ts.length + 2

end

theorem agrees_value {ts us : List Token} (h : Alike f ts us) (table : ShapeTable) :
    Agrees f (SameRead f) (value table ts) (value table us) :=
  agrees_expression h table _

/-! ## Declarations -/

section Declarations

variable {ts us : List Token}

theorem agrees_declaredName (h : Alike f ts us) (fault : GrammarFault) :
    Agrees f (SameRead f) (declaredName fault ts) (declaredName fault us) := by
  unfold declaredName
  rw [h.line_eq]
  rcases h.next?_cases with ⟨s, p, rest, rest', hr, hr', hrest, hts, hus⟩ |
    ⟨a, b, p, rest, rest', hr, hr', hab, hrest, hts, hus⟩ | ⟨hts, hus⟩
  · rw [hts, hus]
    cases s with
    | name n => exact .read hrest
    | _ => exact .error rfl
  · rw [hts, hus]
    exact .error rfl
  · rw [hts, hus]
    exact .error rfl

/-- A type is found at the front of both sequences, or of none. -/
theorem variableType?_cases_of_alike (h : Alike f ts us) :
    (∃ type p rest rest' hr hr', Alike f rest rest' ∧
      variableType? ts = some ⟨(type, p), rest, hr⟩ ∧
      variableType? us = some ⟨(type, p), rest', hr'⟩) ∨
    variableType? ts = none ∧ variableType? us = none := by
  unfold variableType?
  rcases h.next?_cases with ⟨s, p, rest, rest', hr, hr', hrest, hts, hus⟩ |
    ⟨a, b, p, rest, rest', hr, hr', hab, hrest, hts, hus⟩ | ⟨hts, hus⟩
  · rw [hts, hus]
    cases s with
    | keyword word =>
      cases word with
      | type type =>
        dsimp only
        by_cases hvoid : type = .void
        · rw [if_pos hvoid, if_pos hvoid]
          exact .inr ⟨rfl, rfl⟩
        · rw [if_neg hvoid, if_neg hvoid]
          exact .inl ⟨type, p, rest, rest', hr, hr', hrest, rfl, rfl⟩
      | _ => exact .inr ⟨rfl, rfl⟩
    | _ => exact .inr ⟨rfl, rfl⟩
  · rw [hts, hus]
    exact .inr ⟨rfl, rfl⟩
  · rw [hts, hus]
    exact .inr ⟨rfl, rfl⟩

theorem agrees_parameters {ts us : List Token} (h : Alike f ts us) (table : ShapeTable) :
    Agrees f (SameRead f) (parameters table ts) (parameters table us) := by
  rw [parameters, parameters]
  rcases variableType?_cases_of_alike h with
    ⟨type, p, rest, rest', hr, hr', hrest, hts, hus⟩ | ⟨hts, hus⟩
  · rw [hts, hus]
    refine (agrees_declaredName hrest _).bindRead ?_
    intro n more more' hm _ hmore
    refine (Agrees.same _).bind ?_
    rintro table _ rfl
    dsimp only
    rcases hmore.accept_cases (.punct .comma) (by simp) with
      ⟨last, last', hl, hl', hlast, hts, hus⟩ | ⟨hts, hus⟩
    · rw [hts, hus]
      have hlt := ((hr.andThen hm).andThen hl).length_lt
      refine (agrees_parameters hlast table).bindRead ?_
      intro params final final' _ _ hfinal
      exact .read hfinal
    · rw [hts, hus]
      exact .read hmore
  · rw [hts, hus, h.line_eq]
    exact .error (congrArg (fun s => ParseError.grammar (.noParameterType s) (line us))
      h.blur_symbol_eq)
termination_by ts.length

theorem noParameters?_cases_of_alike (h : Alike f ts us) :
    (∃ rest rest' hr hr', Alike f rest rest' ∧ noParameters? ts = some ⟨(), rest, hr⟩ ∧
      noParameters? us = some ⟨(), rest', hr'⟩) ∨
    noParameters? ts = none ∧ noParameters? us = none := by
  unfold noParameters?
  by_cases hclose : symbol us = .punct .closeParen
  · rw [if_pos ((h.symbol_eq_iff (by simp)).2 hclose), if_pos hclose]
    exact .inl ⟨ts, us, _, _, h, rfl, rfl⟩
  · rw [if_neg (fun hc => hclose ((h.symbol_eq_iff (by simp)).1 hc)), if_neg hclose]
    rcases h.accept_cases (.keyword (.type .void)) (by simp) with
      ⟨rest, rest', hr, hr', hrest, hts, hus⟩ | ⟨hts, hus⟩
    · rw [hts, hus]
      dsimp only
      by_cases hnext : symbol rest' = .punct .closeParen
      · rw [if_pos ((hrest.symbol_eq_iff (by simp)).2 hnext), if_pos hnext]
        exact .inl ⟨rest, rest', _, _, hrest, rfl, rfl⟩
      · rw [if_neg (fun hc => hnext ((hrest.symbol_eq_iff (by simp)).1 hc)), if_neg hnext]
        exact .inr ⟨rfl, rfl⟩
    · rw [hts, hus]
      exact .inr ⟨rfl, rfl⟩

theorem agrees_parameterList (h : Alike f ts us) (table : ShapeTable) :
    Agrees f (SamePass f) (parameterList table ts) (parameterList table us) := by
  unfold parameterList
  rcases noParameters?_cases_of_alike h with ⟨rest, rest', hr, hr', hrest, hts, hus⟩ | ⟨hts, hus⟩
  · rw [hts, hus]
    exact .pass hrest
  · rw [hts, hus]
    refine (agrees_parameters h table).bindRead ?_
    intro params rest rest' _ _ hrest
    exact .pass hrest

theorem agrees_arraySize (h : Alike f ts us) :
    Agrees f (SameRead f) (arraySize ts) (arraySize us) := by
  unfold arraySize
  rw [h.line_eq]
  rcases h.next?_cases with ⟨s, p, rest, rest', hr, hr', hrest, hts, hus⟩ |
    ⟨a, b, p, rest, rest', hr, hr', hab, hrest, hts, hus⟩ | ⟨hts, hus⟩
  · rw [hts, hus]
    cases s with
    | number text =>
      dsimp only
      cases unsigned64? text with
      | none => exact .error rfl
      | some size => exact .read hrest
    | _ => exact .error rfl
  · rw [hts, hus]
    exact .error rfl
  · rw [hts, hus]
    exact .error rfl

theorem blur_noElement (h : Alike f ts us) :
    (ParseError.grammar (.noElement (symbol ts)) (line ts)).blur f =
      (ParseError.grammar (.noElement (symbol us)) (line us)).blur f := by
  rw [h.line_eq]
  exact congrArg (fun s => ParseError.grammar (.noElement s) (line us)) h.blur_symbol_eq

theorem agrees_plainElement (h : Alike f ts us) :
    Agrees f (SameRead f) (plainElement ts) (plainElement us) := by
  have herror := blur_noElement h
  unfold plainElement
  rcases h.next?_cases with ⟨s, p, rest, rest', hr, hr', hrest, hts, hus⟩ |
    ⟨a, b, p, rest, rest', hr, hr', hab, hrest, hts, hus⟩ | ⟨hts, hus⟩
  · rw [hts, hus]
    cases s with
    | number text => exact .read hrest
    | character c => exact .read hrest
    | name n => exact .read hrest
    | _ => exact .error herror
  · rw [hts, hus]
    exact .error herror
  · rw [hts, hus]
    exact .error herror

theorem agrees_negatedElement (h : Alike f ts us) :
    Agrees f (SameRead f) (negatedElement ts) (negatedElement us) := by
  have herror := blur_noElement h
  unfold negatedElement
  rcases h.next?_cases with ⟨s, p, rest, rest', hr, hr', hrest, hts, hus⟩ |
    ⟨a, b, p, rest, rest', hr, hr', hab, hrest, hts, hus⟩ | ⟨hts, hus⟩
  · rw [hts, hus]
    cases s with
    | number text => exact .read hrest
    | _ => exact .error herror
  · rw [hts, hus]
    exact .error herror
  · rw [hts, hus]
    exact .error herror

theorem agrees_element (h : Alike f ts us) :
    Agrees f (SameRead f) (element ts) (element us) := by
  unfold element
  rcases h.accept_cases (.operator "-") (by simp) with
    ⟨rest, rest', hr, hr', hrest, hts, hus⟩ | ⟨hts, hus⟩
  · rw [hts, hus]
    refine (agrees_negatedElement hrest).bindRead ?_
    intro e more more' _ _ hmore
    exact .read hmore
  · rw [hts, hus]
    exact agrees_plainElement h

theorem agrees_elements {ts us : List Token} (h : Alike f ts us) :
    Agrees f (SameRead f) (elements ts) (elements us) := by
  rw [elements, elements]
  refine (agrees_element h).bindRead ?_
  intro e rest rest' hr _ hrest
  dsimp only
  rcases hrest.accept_cases (.punct .comma) (by simp) with
    ⟨more, more', hm, hm', hmore, hts, hus⟩ | ⟨hts, hus⟩
  · rw [hts, hus]
    have hlt := (hr.andThen hm).length_lt
    refine (agrees_elements hmore).bindRead ?_
    intro es last last' _ _ hlast
    exact .read hlast
  · rw [hts, hus]
    exact .read hrest
termination_by ts.length

theorem agrees_elementList (h : Alike f ts us) :
    Agrees f (SameRead f) (elementList ts) (elementList us) := by
  unfold elementList
  refine (agrees_expect h _ _).bindRead ?_
  intro _ rest rest' _ _ hrest
  dsimp only
  rcases hrest.accept_cases (.punct .closeBrace) (by simp) with
    ⟨more, more', hm, hm', hmore, hts, hus⟩ | ⟨hts, hus⟩
  · rw [hts, hus]
    exact .read hmore
  · rw [hts, hus]
    refine (agrees_elements hrest).bindRead ?_
    intro es more more' _ _ hmore
    refine (agrees_expect hmore _ _).bindRead ?_
    intro _ last last' _ _ hlast
    exact .read hlast

theorem agrees_arrayForm (h : Alike f ts us) (table : ShapeTable) (n : String) (line : Nat) :
    Agrees f (SameRead f) (arrayForm table n line ts) (arrayForm table n line us) := by
  unfold arrayForm
  refine (agrees_arraySize h).bindRead ?_
  intro size rest rest' _ _ hrest
  refine (agrees_expect hrest _ _).bindRead ?_
  intro _ more more' _ _ hmore
  refine (Agrees.same _).bind ?_
  rintro table _ rfl
  dsimp only
  rcases hmore.accept_cases (.operator "=") (by simp) with
    ⟨last, last', hl, hl', hlast, hts, hus⟩ | ⟨hts, hus⟩
  · rw [hts, hus]
    refine (agrees_elementList hlast).bindRead ?_
    intro es final final' _ _ hfinal
    exact .read hfinal
  · rw [hts, hus]
    exact .read hmore

theorem agrees_form (h : Alike f ts us) (table : ShapeTable) (n : String) (line : Nat) :
    Agrees f (SamePass f) (form table n line ts) (form table n line us) := by
  unfold form
  rcases h.accept_cases (.punct .openBracket) (by simp) with
    ⟨rest, rest', hr, hr', hrest, hts, hus⟩ | ⟨hts, hus⟩
  · rw [hts, hus]
    refine (agrees_arrayForm hrest table n line).bindRead ?_
    intro form more more' _ _ hmore
    exact .pass hmore
  · rw [hts, hus]
    refine (Agrees.same _).bind ?_
    rintro table _ rfl
    dsimp only
    rcases h.accept_cases (.operator "=") (by simp) with
      ⟨rest, rest', hr, hr', hrest, hts, hus⟩ | ⟨hts, hus⟩
    · rw [hts, hus]
      refine (agrees_value hrest table).bindRead ?_
      intro e more more' _ _ hmore
      exact .pass hmore
    · rw [hts, hus]
      exact .pass h

theorem agrees_declaration (h : Alike f ts us) (table : ShapeTable) (type : ScalarType)
    (p : Position) :
    Agrees f (SameRead f) (declaration table type p ts) (declaration table type p us) := by
  unfold declaration
  refine (agrees_declaredName h _).bindRead ?_
  intro n rest rest' _ _ hrest
  refine (agrees_form hrest table n.1 n.2).bindPass ?_
  intro form more more' _ _ hmore
  refine (agrees_expect hmore _ _).bindRead ?_
  intro _ last last' _ _ hlast
  exact .read hlast

end Declarations

/-! ## Loop headers -/

section Headers

variable {ts us : List Token}

theorem assignedName?_cases_of_alike (h : Alike f ts us) :
    (∃ n p rest rest' hr hr', Alike f rest rest' ∧
      assignedName? ts = some ⟨(n, p), rest, hr⟩ ∧
      assignedName? us = some ⟨(n, p), rest', hr'⟩) ∨
    assignedName? ts = none ∧ assignedName? us = none := by
  unfold assignedName?
  rcases h.next?_cases with ⟨s, p, rest, rest', hr, hr', hrest, hts, hus⟩ |
    ⟨a, b, p, rest, rest', hr, hr', hab, hrest, hts, hus⟩ | ⟨hts, hus⟩
  · rw [hts, hus]
    cases s with
    | name n =>
      dsimp only
      rcases hrest.accept_cases (.operator "=") (by simp) with
        ⟨more, more', hm, hm', hmore, hts, hus⟩ | ⟨hts, hus⟩
      · rw [hts, hus]
        exact .inl ⟨n, p, more, more', _, _, hmore, rfl, rfl⟩
      · rw [hts, hus]
        exact .inr ⟨rfl, rfl⟩
    | _ => exact .inr ⟨rfl, rfl⟩
  · rw [hts, hus]
    exact .inr ⟨rfl, rfl⟩
  · rw [hts, hus]
    exact .inr ⟨rfl, rfl⟩

/-- No string is a part of a step. -/
theorem stepOf?_string (a b : String) (s : Symbol) :
    stepOf? (.string a) s = none ∧ stepOf? s (.string b) = none := by
  cases s <;> exact ⟨rfl, rfl⟩

theorem step?_cases_of_alike (h : Alike f ts us) :
    (∃ step rest rest' hr hr', Alike f rest rest' ∧ step? ts = some ⟨step, rest, hr⟩ ∧
      step? us = some ⟨step, rest', hr'⟩) ∨ step? ts = none ∧ step? us = none := by
  unfold step?
  rcases h.next?_cases with ⟨s, p, rest, rest', hr, hr', hrest, hts, hus⟩ |
    ⟨a, b, p, rest, rest', hr, hr', -, hrest, hts, hus⟩ | ⟨hts, hus⟩
  · rw [hts, hus]
    dsimp only
    rcases hrest.next?_cases with ⟨s', p', more, more', hm, hm', hmore, hts, hus⟩ |
      ⟨a, b, p', more, more', hm, hm', -, hmore, hts, hus⟩ | ⟨hts, hus⟩
    · rw [hts, hus]
      dsimp only
      cases stepOf? s s' with
      | none => exact .inr ⟨rfl, rfl⟩
      | some step => exact .inl ⟨step, more, more', _, _, hmore, rfl, rfl⟩
    · rw [hts, hus]
      dsimp only
      rw [(stepOf?_string a a s).2, (stepOf?_string b b s).2]
      exact .inr ⟨rfl, rfl⟩
    · rw [hts, hus]
      exact .inr ⟨rfl, rfl⟩
  · rw [hts, hus]
    dsimp only
    rcases hrest.next?_cases with ⟨s', p', more, more', hm, hm', hmore, hts, hus⟩ |
      ⟨a', b', p', more, more', hm, hm', -, hmore, hts, hus⟩ | ⟨hts, hus⟩
    · rw [hts, hus]
      dsimp only
      rw [(stepOf?_string a a s').1, (stepOf?_string b b s').1]
      exact .inr ⟨rfl, rfl⟩
    · rw [hts, hus]
      exact .inr ⟨rfl, rfl⟩
    · rw [hts, hus]
      exact .inr ⟨rfl, rfl⟩
  · rw [hts, hus]
    exact .inr ⟨rfl, rfl⟩

theorem agrees_forStart (h : Alike f ts us) (table : ShapeTable) :
    AgreesLogged f (SamePass f) (forStart table ts) (forStart table us) := by
  unfold forStart
  rcases h.accept_cases (.punct .semicolon) (by simp) with
    ⟨rest, rest', hr, hr', hrest, hts, hus⟩ | ⟨hts, hus⟩
  · rw [hts, hus]
    exact .pass hrest
  rw [hts, hus]
  dsimp only
  rcases assignedName?_cases_of_alike h with
    ⟨n, p, rest, rest', hr, hr', hrest, hts, hus⟩ | ⟨hts, hus⟩
  · rw [hts, hus]
    refine (AgreesLogged.lift (agrees_value hrest table)).bindRead ?_
    intro e more more' _ _ hmore
    refine (AgreesLogged.lift (agrees_expect hmore _ _)).bindRead ?_
    intro _ last last' _ _ hlast
    exact .pass hlast
  rw [hts, hus]
  dsimp only
  rcases variableType?_cases_of_alike h with
    ⟨type, p, rest, rest', hr, hr', hrest, hts, hus⟩ | ⟨hts, hus⟩
  · rw [hts, hus]
    refine (AgreesLogged.lift (agrees_declaration hrest table type p)).bindRead ?_
    intro d more more' _ _ hmore
    exact .pass hmore
  · rw [hts, hus, h.line_eq]
    exact .tell rfl (.pass h.afterSemicolon)

theorem agrees_forCondition (h : Alike f ts us) (table : ShapeTable) :
    Agrees f (SameRead f) (forCondition table ts) (forCondition table us) := by
  unfold forCondition
  rcases h.accept_cases (.punct .semicolon) (by simp) with
    ⟨rest, rest', hr, hr', hrest, hts, hus⟩ | ⟨hts, hus⟩
  · rw [hts, hus]
    exact .read hrest
  · rw [hts, hus]
    refine (agrees_value h table).bindRead ?_
    intro e rest rest' _ _ hrest
    refine (agrees_expect hrest _ _).bindRead ?_
    intro _ last last' _ _ hlast
    exact .read hlast

theorem agrees_forIncrement (h : Alike f ts us) (table : ShapeTable) :
    AgreesLogged f (SamePass f) (forIncrement table ts) (forIncrement table us) := by
  unfold forIncrement
  by_cases hclose : symbol us = .punct .closeParen
  · rw [if_pos ((h.symbol_eq_iff (by simp)).2 hclose), if_pos hclose]
    exact .pass h
  rw [if_neg (fun hc => hclose ((h.symbol_eq_iff (by simp)).1 hc)), if_neg hclose]
  rcases step?_cases_of_alike h with ⟨step, rest, rest', hr, hr', hrest, hts, hus⟩ | ⟨hts, hus⟩
  · rw [hts, hus, h.position_eq]
    exact .pass hrest
  rw [hts, hus]
  dsimp only
  rcases assignedName?_cases_of_alike h with
    ⟨n, p, rest, rest', hr, hr', hrest, hts, hus⟩ | ⟨hts, hus⟩
  · rw [hts, hus]
    refine (AgreesLogged.lift (agrees_value hrest table)).bindRead ?_
    intro e more more' _ _ hmore
    exact .pass hmore
  · rw [hts, hus, h.line_eq]
    exact .tell rfl (.pass (h.endOfHeader 0))

theorem agrees_forHeader (h : Alike f ts us) (table : ShapeTable) :
    AgreesLogged f (SameRead f) (forHeader table ts) (forHeader table us) := by
  unfold forHeader
  refine (AgreesLogged.lift (agrees_expect h _ _)).bindRead ?_
  intro _ ts us _ _ h
  refine (agrees_forStart h table).bindPass ?_
  intro start ts us _ _ h
  refine (AgreesLogged.lift (agrees_forCondition h start.2)).bindRead ?_
  intro e ts us _ _ h
  refine (agrees_forIncrement h start.2).bindPass ?_
  intro increment ts us _ _ h
  refine (AgreesLogged.lift (agrees_expect h _ _)).bindRead ?_
  intro _ ts us _ _ h
  refine (AgreesLogged.lift (agrees_expect h _ _)).bindRead ?_
  intro _ ts us _ _ h
  exact .read h

end Headers

/-! ## Simple statements -/

section Simple

variable {ts us : List Token}

theorem agrees_leaveOut (h : Alike f ts us) (table : ShapeTable) {n n' : Notice}
    (hn : n.blur f = n'.blur f) :
    AgreesLogged f (SamePass f) (leaveOut table n ts) (leaveOut table n' us) :=
  .tell hn (.pass h.afterStatement)

theorem agrees_target (h : Alike f ts us) (table : ShapeTable) (n : String) :
    Agrees f (SamePass f) (target table n ts) (target table n us) := by
  unfold target
  rcases h.accept_cases (.punct .openBracket) (by simp) with
    ⟨rest, rest', hr, hr', hrest, hts, hus⟩ | ⟨hts, hus⟩
  · rw [hts, hus, h.line_eq]
    refine (agrees_index hrest table n _).bindRead ?_
    intro i more more' _ _ hmore
    exact .pass hmore
  · rw [hts, hus]
    exact .pass h

theorem agrees_assignment (h : Alike f ts us) (table : ShapeTable) (n : String) (p : Position) :
    AgreesLogged f (SamePass f) (assignment table n p ts) (assignment table n p us) := by
  unfold assignment
  refine (AgreesLogged.lift (agrees_target h table n)).bindPass ?_
  intro place rest rest' _ _ hrest
  dsimp only
  rcases hrest.accept_cases (.operator "=") (by simp) with
    ⟨more, more', hm, hm', hmore, hts, hus⟩ | ⟨hts, hus⟩
  · rw [hts, hus]
    refine (AgreesLogged.lift (agrees_value hmore table)).bindRead ?_
    intro e last last' _ _ hlast
    refine (AgreesLogged.lift (agrees_expect hlast _ _)).bindRead ?_
    intro _ final final' _ _ hfinal
    exact .pass hfinal
  · rw [hts, hus]
    refine (agrees_leaveOut hrest table rfl).bindPass ?_
    intro s last last' _ _ hlast
    exact .pass hlast

theorem agrees_returned (h : Alike f ts us) (table : ShapeTable) (p : Position) :
    Agrees f (SameRead f) (returned table p ts) (returned table p us) := by
  unfold returned
  rcases h.accept_cases (.punct .semicolon) (by simp) with
    ⟨rest, rest', hr, hr', hrest, hts, hus⟩ | ⟨hts, hus⟩
  · rw [hts, hus]
    exact .read hrest
  · rw [hts, hus]
    refine (agrees_value h table).bindRead ?_
    intro e rest rest' _ _ hrest
    refine (agrees_expect hrest _ _).bindRead ?_
    intro _ last last' _ _ hlast
    exact .read hlast

theorem agrees_jump (h : Alike f ts us) (inLoop : Bool) (j : Jump) (p : Position) :
    Agrees f (SameRead f) (jump inLoop j p ts) (jump inLoop j p us) := by
  unfold jump
  split
  · refine (agrees_expect h _ _).bindRead ?_
    intro _ rest rest' _ _ hrest
    exact .read hrest
  · exact .error rfl

theorem agrees_condition (h : Alike f ts us) (before after : Place) (table : ShapeTable) :
    Agrees f (SameRead f) (condition before after table ts) (condition before after table us) := by
  unfold condition
  refine (agrees_expect h _ _).bindRead ?_
  intro _ ts us _ _ h
  refine (agrees_value h table).bindRead ?_
  intro e ts us _ _ h
  refine (agrees_expect h _ _).bindRead ?_
  intro _ ts us _ _ h
  refine (agrees_expect h _ _).bindRead ?_
  intro _ ts us _ _ h
  exact .read h

end Simple

/-! ## Compound statements -/

mutual

theorem agrees_block {ts us : List Token} (h : Alike f ts us) (place : Place) (inLoop : Bool)
    (depth : Nat) (table : ShapeTable) :
    AgreesLogged f (SameRead f) (block place inLoop depth table ts)
      (block place inLoop depth table us) := by
  rw [block, block]
  rcases h.next?_cases with ⟨s, p, rest, rest', hr, hr', hrest, hts, hus⟩ |
    ⟨a, b, p, rest, rest', hr, hr', hab, hrest, hts, hus⟩ | ⟨hts, hus⟩
  · rw [hts, hus]
    have hlt := hr.length_lt
    dsimp only
    split
    · exact .read hrest
    · refine (agrees_block hrest place inLoop _ table).bindRead ?_
      intro body more more' _ _ hmore
      exact .read hmore
    · refine (agrees_block hrest place inLoop _ table).bindRead ?_
      intro body more more' _ _ hmore
      exact .read hmore
    · refine (agrees_statement hrest inLoop table s p).bindPass ?_
      intro first more more' hm _ hmore
      have hlt' := (hr.andPass hm).length_lt
      refine (agrees_block hmore place inLoop _ first.2).bindRead ?_
      intro body last last' _ _ hlast
      exact .read hlast
  · rw [hts, hus]
    have hlt := hr.length_lt
    have hstring : ∀ c, statement inLoop table ⟨.string c, p⟩ = fun ts =>
        leaveOut table (.unknownStatement p.line (.string c)) ts := by
      intro c
      funext ts
      rw [statement]
      rfl
    dsimp only
    rw [hstring, hstring]
    refine (agrees_leaveOut hrest table ?_).bindPass ?_
    · exact congrArg (fun text => Notice.unknownStatement p.line (.string text)) hab
    · intro first more more' hm _ hmore
      have hlt' := (hr.andPass hm).length_lt
      refine (agrees_block hmore place inLoop _ first.2).bindRead ?_
      intro body last last' _ _ hlast
      exact .read hlast
  · rw [hts, hus, h.line_eq]
    exact ⟨rfl, .error rfl⟩
termination_by 3 * ts.length

theorem agrees_statement {ts us : List Token} (h : Alike f ts us) (inLoop : Bool)
    (table : ShapeTable) (s : Symbol) (p : Position) :
    AgreesLogged f (SamePass f) (statement inLoop table ⟨s, p⟩ ts)
      (statement inLoop table ⟨s, p⟩ us) := by
  rw [statement, statement]
  dsimp only
  split
  · exact agrees_leaveOut h table rfl
  · next type _ =>
    refine (AgreesLogged.lift (agrees_declaration h table type p)).bindRead ?_
    intro d rest rest' _ _ hrest
    exact .pass hrest
  · exact agrees_assignment h table _ p
  · refine (AgreesLogged.lift (agrees_returned h table p)).bindRead ?_
    intro s rest rest' _ _ hrest
    exact .pass hrest
  · refine (AgreesLogged.lift (agrees_condition h _ _ table)).bindRead ?_
    intro e rest rest' hr _ hrest
    have hlt := hr.length_lt
    refine (agrees_block hrest _ inLoop 0 table).bindRead ?_
    intro body more more' hm _ hmore
    have hlt' : more.length < rest.length := hm.length_lt
    refine (agrees_alternative hmore inLoop body.2).bindPass ?_
    intro otherwise last last' _ _ hlast
    exact .pass hlast
  · refine (AgreesLogged.lift (agrees_condition h _ _ table)).bindRead ?_
    intro e rest rest' hr _ hrest
    have hlt := hr.length_lt
    refine (agrees_block hrest _ true 0 table).bindRead ?_
    intro body more more' _ _ hmore
    exact .pass hmore
  · refine (agrees_forHeader h table).bindRead ?_
    intro header rest rest' hr _ hrest
    have hlt := hr.length_lt
    refine (agrees_block hrest _ true 0 header.2).bindRead ?_
    intro body more more' _ _ hmore
    exact .pass hmore
  · refine (AgreesLogged.lift (agrees_jump h inLoop _ p)).bindRead ?_
    intro s rest rest' _ _ hrest
    exact .pass hrest
  · exact .tell rfl (.pass h)
  · exact agrees_leaveOut h table rfl
termination_by 3 * ts.length + 1

theorem agrees_alternative {ts us : List Token} (h : Alike f ts us) (inLoop : Bool)
    (table : ShapeTable) :
    AgreesLogged f (SamePass f) (alternative inLoop table ts) (alternative inLoop table us) := by
  rw [alternative, alternative]
  rcases h.accept_cases (.keyword .elseKw) (by simp) with
    ⟨rest, rest', hr, hr', hrest, hts, hus⟩ | ⟨hts, hus⟩
  · rw [hts, hus]
    dsimp only
    rcases hrest.accept_cases (.keyword .ifKw) (by simp) with
      ⟨more, more', hm, hm', hmore, hts, hus⟩ | ⟨hts, hus⟩
    · rw [hts, hus, h.position_eq]
      have hlt := (hr.andThen hm).length_lt
      refine (AgreesLogged.lift (agrees_condition hmore _ _ table)).bindRead ?_
      intro e inner inner' hi _ hinner
      have hlt' := hi.length_lt
      refine (agrees_block hinner _ inLoop 0 table).bindRead ?_
      intro body next next' hn _ hnext
      have hlt'' : next.length < inner.length := hn.length_lt
      refine (agrees_alternative hnext inLoop body.2).bindPass ?_
      intro otherwise last last' _ _ hlast
      exact .pass hlast
    · rw [hts, hus]
      refine (AgreesLogged.lift (agrees_expect hrest _ _)).bindRead ?_
      intro _ more more' hm _ hmore
      have hlt := (hr.andThen hm).length_lt
      refine (agrees_block hmore _ inLoop 0 table).bindRead ?_
      intro body last last' _ _ hlast
      exact .pass hlast
  · rw [hts, hus]
    exact .pass h
termination_by 3 * ts.length

end

/-! ## Programs -/

theorem agrees_function {ts us : List Token} (h : Alike f ts us) (returns : ScalarType)
    (n : String) (p : Position) :
    AgreesLogged f (SameRead f) (function returns n p ts) (function returns n p us) := by
  unfold function
  refine (AgreesLogged.lift (agrees_parameterList h _)).bindPass ?_
  intro params ts us _ _ h
  refine (AgreesLogged.lift (agrees_expect h _ _)).bindRead ?_
  intro _ ts us _ _ h
  refine (AgreesLogged.lift (agrees_expect h _ _)).bindRead ?_
  intro _ ts us _ _ h
  refine (agrees_block h _ false 0 params.2).bindRead ?_
  intro body ts us _ _ h
  exact .read h

theorem agrees_functions {ts us : List Token} (h : Alike f ts us) :
    AgreesLogged f Eq (functions ts) (functions us) := by
  rw [functions, functions]
  rcases h.next?_cases with ⟨s, p, rest, rest', hr, hr', hrest, hts, hus⟩ |
    ⟨a, b, p, rest, rest', hr, hr', hab, hrest, hts, hus⟩ | ⟨hts, hus⟩
  · rw [hts, hus]
    have hlt := hr.length_lt
    dsimp only
    split
    · next returns =>
      rcases hrest.next?_cases with ⟨s, p, more, more', hm, hm', hmore, hts, hus⟩ |
        ⟨a, b, p, more, more', hm, hm', hab, hmore, hts, hus⟩ | ⟨hts, hus⟩
      · rw [hts, hus]
        cases s with
        | name n =>
          dsimp only
          rcases hmore.accept_cases (.punct .openParen) (by simp) with
            ⟨inner, inner', hi, hi', hinner, hts, hus⟩ | ⟨hts, hus⟩
          · rw [hts, hus]
            refine (agrees_function hinner returns n p).bindRead ?_
            intro f last last' hl _ hlast
            have hlt' := ((hm.andThen hi).andThen hl).length_lt
            refine .tell rfl ((agrees_functions hlast).bind ?_)
            rintro fs _ rfl
            exact ⟨rfl, .ok rfl⟩
          · rw [hts, hus]
            have hle := length_afterSemicolon_le rest
            exact .tell rfl (agrees_functions hrest.afterSemicolon)
        | _ => exact .tell rfl (agrees_functions hrest)
      · rw [hts, hus]
        exact .tell rfl (agrees_functions hrest)
      · rw [hts, hus]
        exact .tell rfl (agrees_functions hrest)
    · exact .tell rfl (agrees_functions hrest)
  · rw [hts, hus]
    have hlt := hr.length_lt
    have hstray : (Notice.strayToken (.string a)).blur f = (Notice.strayToken (.string b)).blur f :=
      congrArg (fun text => Notice.strayToken (.string text)) hab
    exact .tell hstray (agrees_functions hrest)
  · rw [hts, hus]
    exact ⟨rfl, .ok rfl⟩
termination_by ts.length

end Parse

end ClockedC
