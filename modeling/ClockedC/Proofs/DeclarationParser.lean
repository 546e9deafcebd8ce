import ClockedC.Proofs.ExprParser
import ClockedC.Proofs.ProgramGrammar
import ClockedC.Proofs.ShapeHistory

/-!
# Reading declarations by their grammar

Parameters and declarations of local variables are read exactly as the grammar derives them, and the
table of shapes goes along with what they mention.

* `passes_parameterList`: the parameters of a function.
* `reads_elementList`: array initializers.
* `reads_declaration`: declarations of local variables.
-/

namespace ClockedC

namespace Parse

open Cursor

variable {table table' : ShapeTable} {ts rest : List Token}

/-! ## Single tokens -/

theorem declared_eq_ok {line : Nat} {result : Except Conflict ShapeTable} :
    declared line result = .ok table ↔ result = .ok table := by
  cases result with
  | ok t => exact ⟨fun h => congrArg Except.ok (Except.ok.inj h), fun h => by cases h; rfl⟩
  | error c => exact ⟨nofun, nofun⟩

theorem reads_declaredName {fault : GrammarFault} {n : String} {l : Nat} :
    Reads (declaredName fault ts) (n, l) rest ↔ ∃ p, ts = ⟨.name n, p⟩ :: rest ∧ l = p.line := by
  rcases next?_cases ts with ⟨s, p, us, h, rfl, hnext⟩ | ⟨heof, hnext⟩
  · rw [declaredName, hnext]
    cases s with
    | name n' =>
      rw [reads_ok]
      constructor
      · rintro ⟨heq, rfl⟩
        cases heq
        exact ⟨p, rfl, rfl⟩
      · rintro ⟨p', heq, rfl⟩
        cases heq
        exact ⟨rfl, rfl⟩
    | _ => exact ⟨fun h => absurd h not_reads_error, nofun⟩
  · rw [declaredName, hnext]
    refine ⟨fun h => absurd h not_reads_error, ?_⟩
    rintro ⟨p, rfl, -⟩
    cases heof

theorem variableType?_type {type : ScalarType} (htype : type ≠ .void) (p : Position) :
    variableType? (⟨.keyword (.type type), p⟩ :: ts) =
      some ⟨(type, p), ts, Beyond.cons (t := ⟨.keyword (.type type), p⟩) (by simp) ts⟩ := by
  rw [variableType?, next?_cons (t := ⟨.keyword (.type type), p⟩) (by simp)]
  exact if_neg htype

/-- Either a type that a variable can have comes next, or there is none. -/
theorem variableType?_cases (ts : List Token) :
    (∃ type p us, type ≠ .void ∧ ts = ⟨.keyword (.type type), p⟩ :: us) ∨
      variableType? ts = none := by
  rcases next?_cases ts with ⟨s, p, us, h, rfl, hnext⟩ | ⟨heof, hnext⟩
  · match s with
    | .keyword (.type type) =>
      by_cases htype : type = .void
      · right
        rw [variableType?, hnext]
        exact if_pos htype
      · exact Or.inl ⟨type, p, us, htype, rfl⟩
    | .keyword (.jump _) | .keyword .returnKw | .keyword .ifKw | .keyword .elseKw
    | .keyword .whileKw | .keyword .forKw | .number _ | .character _ | .string _ | .name _
    | .operator _ | .punct _ | .eof =>
      right
      rw [variableType?, hnext]
  · right
    rw [variableType?, hnext]

theorem reads_arraySize {size : Nat} :
    Reads (arraySize ts) size rest ↔
      ∃ text p, ts = ⟨.number text, p⟩ :: rest ∧ unsigned64? text = some size := by
  rcases next?_cases ts with ⟨s, p, us, h, rfl, hnext⟩ | ⟨heof, hnext⟩
  · rw [arraySize, hnext]
    cases s with
    | number text =>
      dsimp only
      cases hsize : unsigned64? text with
      | none =>
        refine ⟨fun h => absurd h not_reads_error, ?_⟩
        rintro ⟨text', p', heq, hsome⟩
        cases heq
        cases hsize.symm.trans hsome
      | some size' =>
        rw [reads_ok]
        constructor
        · rintro ⟨rfl, rfl⟩
          exact ⟨text, p, rfl, hsize⟩
        · rintro ⟨text', p', heq, hsome⟩
          cases heq
          cases hsize.symm.trans hsome
          exact ⟨rfl, rfl⟩
    | _ => exact ⟨fun h => absurd h not_reads_error, nofun⟩
  · rw [arraySize, hnext]
    refine ⟨fun h => absurd h not_reads_error, ?_⟩
    rintro ⟨text, p, rfl, -⟩
    cases heof

/-! ## Parameters -/

theorem reads_parameters {params : List Param} :
    Reads (parameters table ts) (params, table') rest ↔
      ∃ type p n q mid next, type ≠ .void ∧
        ts = ⟨.keyword (.type type), p⟩ :: ⟨.name n, q⟩ :: mid ∧ table.addScalar n = .ok next ∧
        (symbol mid ≠ .punct .comma ∧ params = [⟨type, n⟩] ∧ table' = next ∧ rest = mid ∨
          ∃ r us others, mid = ⟨.punct .comma, r⟩ :: us ∧ params = ⟨type, n⟩ :: others ∧
            Reads (parameters next us) (others, table') rest) := by
  rcases variableType?_cases ts with ⟨type, p, us, htype, rfl⟩ | hnone
  · rw [parameters, variableType?_type htype]
    simp only [reads_bind, Read.exists, Prod.exists]
    constructor
    · rintro ⟨n, l, mid, h, hname, next, hnext, hrest⟩
      obtain ⟨q, rfl, rfl⟩ := reads_declaredName.1 ⟨h, hname⟩
      refine ⟨type, p, n, q, mid, next, htype, rfl, declared_eq_ok.1 hnext, ?_⟩
      rcases accept_cases (s := .punct .comma) (by simp) mid with
        ⟨r, us, h', rfl, hacc⟩ | ⟨hne, hacc⟩
      · rw [hacc] at hrest
        simp only [reads_bind, Read.exists, Prod.exists, reads_pure, Prod.mk.injEq] at hrest
        obtain ⟨others, last, end', h'', hothers, ⟨rfl, rfl⟩, rfl⟩ := hrest
        exact .inr ⟨r, us, others, rfl, rfl, h'', hothers⟩
      · rw [hacc, reads_pure, Prod.mk.injEq] at hrest
        obtain ⟨⟨rfl, rfl⟩, rfl⟩ := hrest
        exact .inl ⟨hne, rfl, rfl, rfl⟩
    · rintro ⟨type', p', n, q, mid, next, -, heq, hnext, hrest⟩
      cases heq
      obtain ⟨h, hname⟩ : Reads (declaredName .noParameterName (⟨.name n, q⟩ :: mid)) (n, q.line)
          mid := reads_declaredName.2 ⟨q, rfl, rfl⟩
      refine ⟨n, q.line, mid, h, hname, next, declared_eq_ok.2 hnext, ?_⟩
      rcases hrest with ⟨hne, rfl, rfl, rfl⟩ | ⟨r, us, others, rfl, rfl, h'', hothers⟩
      · rw [accept_eq_none hne]
        exact reads_pure.2 ⟨rfl, rfl⟩
      · rw [accept_punct]
        simp only [reads_bind, Read.exists, Prod.exists, reads_pure, Prod.mk.injEq]
        exact ⟨others, table', rest, h'', hothers, ⟨rfl, rfl⟩, rfl⟩
  · rw [parameters, hnone]
    refine ⟨fun h => absurd h not_reads_error, ?_⟩
    rintro ⟨type, p, n, q, mid, next, htype, rfl, -⟩
    rw [variableType?_type htype] at hnone
    cases hnone

/-- What a list of parameters mentions. -/
abbrev mentionsOf (params : List Param) : List Mention :=
  params.map fun p => .declared p.name .scalar

theorem parameters_sound {table table' : ShapeTable} {ts rest : List Token} {params : List Param}
    (h : Reads (parameters table ts) (params, table') rest) :
    ∃ taken, ts = taken ++ rest ∧ ParametersForm taken params ∧ symbol rest ≠ .punct .comma ∧
      table.Follows (mentionsOf params) table' := by
  obtain ⟨type, p, n, q, mid, next, htype, rfl, hnext, hrest⟩ := reads_parameters.1 h
  rcases hrest with ⟨hne, rfl, rfl, rfl⟩ | ⟨r, us, others, rfl, rfl, hothers⟩
  · exact ⟨[_, _], rfl, .one htype, hne, _, hnext, rfl⟩
  · obtain ⟨taken, rfl, hform, hne, hfollows⟩ := parameters_sound hothers
    exact ⟨_ :: _ :: _ :: taken, rfl, .more htype hform, hne, next, hnext, hfollows⟩
termination_by ts.length
decreasing_by
  subst_vars
  simp +arith

theorem reads_of_parametersForm {taken : List Token} {params : List Param}
    (h : ParametersForm taken params) (hne : symbol rest ≠ .punct .comma)
    (hfollows : table.Follows (mentionsOf params) table') :
    Reads (parameters table (taken ++ rest)) (params, table') rest := by
  induction h generalizing table with
  | one htype =>
    obtain ⟨next, hnext, rfl⟩ := hfollows
    exact reads_parameters.2
      ⟨_, _, _, _, rest, table', htype, rfl, hnext, .inl ⟨hne, rfl, rfl, rfl⟩⟩
  | more htype others ih =>
    obtain ⟨next, hnext, hfollows⟩ := hfollows
    exact reads_parameters.2
      ⟨_, _, _, _, _, next, htype, rfl, hnext, .inr ⟨_, _, _, rfl, rfl, ih hfollows⟩⟩

theorem noParameters?_closeParen (p : Position) (ts : List Token) :
    noParameters? (⟨.punct .closeParen, p⟩ :: ts) =
      some (.stay () (⟨.punct .closeParen, p⟩ :: ts)) :=
  if_pos rfl

theorem noParameters?_void (p q : Position) (ts : List Token) :
    ∃ h, noParameters? (⟨.keyword (.type .void), p⟩ :: ⟨.punct .closeParen, q⟩ :: ts) =
      some ⟨(), ⟨.punct .closeParen, q⟩ :: ts, h⟩ := by
  rw [noParameters?, if_neg, accept_keyword]
  · exact ⟨_, if_pos rfl⟩
  · simp

theorem noParameters?_type {type : ScalarType} (htype : type ≠ .void) (p : Position)
    (ts : List Token) : noParameters? (⟨.keyword (.type type), p⟩ :: ts) = none := by
  rw [noParameters?, if_neg, accept_eq_none]
  · intro hs
    exact htype (Keyword.type.inj (Symbol.keyword.inj hs))
  · simp

/-- Where an empty list of parameters is read, one was written. -/
theorem noParameters?_cases (ts : List Token) :
    noParameters? ts = none ∨ ∃ taken rest h, ts = taken ++ rest ∧
      noParameters? ts = some ⟨(), rest, h⟩ ∧ ParameterListForm taken [] := by
  unfold noParameters?
  split
  · exact .inr ⟨[], ts, Left.refl ts, rfl, rfl, .empty⟩
  · rcases accept_cases (s := .keyword (.type .void)) (by simp) ts with
      ⟨p, us, h, rfl, hacc⟩ | ⟨-, hacc⟩
    · rw [hacc]
      dsimp only
      split
      · exact .inr ⟨[_], us, h.left, rfl, rfl, .void⟩
      · exact .inl rfl
    · rw [hacc]
      exact .inl rfl

theorem passes_parameterList {params : List Param} {p : Position} :
    Passes (parameterList table ts) (params, table') (⟨.punct .closeParen, p⟩ :: rest) ↔
      ∃ taken, ts = taken ++ ⟨.punct .closeParen, p⟩ :: rest ∧ ParameterListForm taken params ∧
        table.Follows (mentionsOf params) table' := by
  rw [parameterList]
  constructor
  · rcases noParameters?_cases ts with hnone | ⟨taken, mid, h, rfl, hsome, hform⟩
    · rw [hnone]
      simp only [passes_bind, Read.exists, passes_pure]
      rintro ⟨answer, mid, h, hread, rfl, rfl⟩
      obtain ⟨taken, rfl, hform, -, hfollows⟩ := parameters_sound ⟨h, hread⟩
      exact ⟨taken, rfl, .some hform, hfollows⟩
    · rw [hsome]
      dsimp only
      rw [passes_ok]
      rintro ⟨heq, rfl⟩
      cases heq
      exact ⟨taken, rfl, hform, rfl⟩
  · rintro ⟨taken, rfl, hform, hfollows⟩
    cases hform with
    | empty =>
      cases hfollows
      rw [List.nil_append, noParameters?_closeParen]
      exact passes_ok.2 ⟨rfl, rfl⟩
    | @void q =>
      cases hfollows
      obtain ⟨h, hvoid⟩ := noParameters?_void q p rest
      rw [List.singleton_append, hvoid]
      exact passes_ok.2 ⟨rfl, rfl⟩
    | some hsome =>
      have hnone : noParameters? (taken ++ ⟨.punct .closeParen, p⟩ :: rest) = none := by
        cases hsome with
        | one htype | more htype => exact noParameters?_type htype _ _
      obtain ⟨h, hread⟩ : Reads (parameters table (taken ++ ⟨.punct .closeParen, p⟩ :: rest))
          (params, table') (⟨.punct .closeParen, p⟩ :: rest) :=
        reads_of_parametersForm hsome (by simp) hfollows
      rw [hnone]
      simp only [passes_bind, Read.exists, passes_pure]
      exact ⟨_, _, h, hread, rfl, rfl⟩

/-! ## Array initializers -/

theorem reads_plainElement {e : Element} :
    Reads (plainElement ts) e rest ↔
      ∃ s p, ts = ⟨s, p⟩ :: rest ∧ s ≠ .operator "-" ∧ ElementForm [⟨s, p⟩] e := by
  rcases next?_cases ts with ⟨s, p, us, h, rfl, hnext⟩ | ⟨heof, hnext⟩
  · rw [plainElement, hnext]
    cases s with
    | number _ | character _ | name _ =>
      rw [reads_ok]
      constructor
      · rintro ⟨rfl, rfl⟩
        exact ⟨_, p, rfl, by simp, by constructor⟩
      · rintro ⟨s', p', heq, -, hform⟩
        cases heq
        cases hform
        exact ⟨rfl, rfl⟩
    | _ =>
      refine ⟨fun h => absurd h not_reads_error, ?_⟩
      rintro ⟨s', p', heq, -, hform⟩
      cases heq
      cases hform
  · rw [plainElement, hnext]
    refine ⟨fun h => absurd h not_reads_error, ?_⟩
    rintro ⟨s, p, rfl, -, hform⟩
    cases hform <;> cases heof

theorem reads_negatedElement {e : Element} :
    Reads (negatedElement ts) e rest ↔
      ∃ text p, ts = ⟨.number text, p⟩ :: rest ∧ e = .number ("-" ++ text) := by
  rcases next?_cases ts with ⟨s, p, us, h, rfl, hnext⟩ | ⟨heof, hnext⟩
  · rw [negatedElement, hnext]
    cases s with
    | number text =>
      rw [reads_ok]
      constructor
      · rintro ⟨rfl, rfl⟩
        exact ⟨text, p, rfl, rfl⟩
      · rintro ⟨text', p', heq, rfl⟩
        cases heq
        exact ⟨rfl, rfl⟩
    | _ => exact ⟨fun h => absurd h not_reads_error, nofun⟩
  · rw [negatedElement, hnext]
    refine ⟨fun h => absurd h not_reads_error, ?_⟩
    rintro ⟨text, p, rfl, -⟩
    cases heof

theorem reads_element {e : Element} :
    Reads (element ts) e rest ↔ ∃ taken, ts = taken ++ rest ∧ ElementForm taken e := by
  rw [element]
  rcases accept_cases (s := .operator "-") (by simp) ts with ⟨p, us, h, rfl, hacc⟩ | ⟨hne, hacc⟩
  · rw [hacc]
    simp only [reads_bind, Read.exists, reads_pure]
    constructor
    · rintro ⟨e', mid, h', hread, rfl, rfl⟩
      obtain ⟨text, q, rfl, rfl⟩ := reads_negatedElement.1 ⟨h', hread⟩
      exact ⟨[_, _], rfl, .negated⟩
    · rintro ⟨taken, heq, hform⟩
      cases hform with
      | negated =>
        cases heq
        obtain ⟨h', hread⟩ := reads_negatedElement.2 ⟨_, _, rfl, rfl⟩
        exact ⟨_, _, h', hread, rfl, rfl⟩
      | _ => cases heq
  · rw [hacc]
    dsimp only
    rw [reads_plainElement]
    constructor
    · rintro ⟨s, p, rfl, -, hform⟩
      exact ⟨[⟨s, p⟩], rfl, hform⟩
    · rintro ⟨taken, rfl, hform⟩
      cases hform with
      | negated => exact absurd rfl hne
      | number => exact ⟨_, _, rfl, by simp, .number⟩
      | character => exact ⟨_, _, rfl, by simp, .character⟩
      | name => exact ⟨_, _, rfl, by simp, .name⟩

theorem reads_elements {es : List Element} :
    Reads (elements ts) es rest ↔
      ∃ e mid, Reads (element ts) e mid ∧
        (symbol mid ≠ .punct .comma ∧ es = [e] ∧ rest = mid ∨
          ∃ q us others, mid = ⟨.punct .comma, q⟩ :: us ∧ es = e :: others ∧
            Reads (elements us) others rest) := by
  rw [elements]
  simp only [reads_bind, Read.exists]
  constructor
  · rintro ⟨e, mid, h, hread, hrest⟩
    refine ⟨e, mid, ⟨h, hread⟩, ?_⟩
    rcases accept_cases (s := .punct .comma) (by simp) mid with ⟨q, us, h', rfl, hacc⟩ | ⟨hne, hacc⟩
    · rw [hacc] at hrest
      simp only [reads_bind, Read.exists, reads_pure] at hrest
      obtain ⟨others, end', h'', hothers, rfl, rfl⟩ := hrest
      exact .inr ⟨q, us, others, rfl, rfl, h'', hothers⟩
    · rw [hacc, reads_pure] at hrest
      obtain ⟨rfl, rfl⟩ := hrest
      exact .inl ⟨hne, rfl, rfl⟩
  · rintro ⟨e, mid, ⟨h, hread⟩, hrest⟩
    refine ⟨e, mid, h, hread, ?_⟩
    rcases hrest with ⟨hne, rfl, rfl⟩ | ⟨q, us, others, rfl, rfl, h', hothers⟩
    · rw [accept_eq_none hne]
      exact reads_pure.2 ⟨rfl, rfl⟩
    · rw [accept_punct]
      simp only [reads_bind, Read.exists, reads_pure]
      exact ⟨others, rest, h', hothers, rfl, rfl⟩

theorem elements_sound {ts rest : List Token} {es : List Element}
    (h : Reads (elements ts) es rest) :
    ∃ taken, ts = taken ++ rest ∧ ElementsForm taken es := by
  obtain ⟨e, mid, hread, hrest⟩ := reads_elements.1 h
  have hlt := hread.length_lt
  obtain ⟨taken, rfl, hform⟩ := reads_element.1 hread
  rcases hrest with ⟨hne, rfl, rfl⟩ | ⟨q, us, others, rfl, rfl, hothers⟩
  · exact ⟨taken, rfl, .one hform⟩
  · obtain ⟨more, rfl, hmore⟩ := elements_sound hothers
    refine ⟨taken ++ ⟨.punct .comma, q⟩ :: more, ?_, .more hform hmore⟩
    rw [List.append_assoc, List.cons_append]
termination_by ts.length
decreasing_by
  subst_vars
  simp +arith

theorem reads_of_elementsForm {taken : List Token} {es : List Element}
    (h : ElementsForm taken es) (hne : symbol rest ≠ .punct .comma) :
    Reads (elements (taken ++ rest)) es rest := by
  induction h with
  | one hform =>
    exact reads_elements.2 ⟨_, rest, reads_element.2 ⟨_, rfl, hform⟩, .inl ⟨hne, rfl, rfl⟩⟩
  | more first others ih =>
    rw [List.append_assoc]
    exact reads_elements.2 ⟨_, _, reads_element.2 ⟨_, rfl, first⟩, .inr ⟨_, _, _, rfl, rfl, ih⟩⟩

theorem symbol_of_elementsForm {taken : List Token} {es : List Element} (h : ElementsForm taken es)
    (rest : List Token) : symbol (taken ++ rest) ≠ .punct .closeBrace := by
  cases h with
  | one first => cases first <;> simp
  | more first others => cases first <;> simp

theorem reads_elementList {es : List Element} :
    Reads (elementList ts) es rest ↔ ∃ taken, ts = taken ++ rest ∧ ElementListForm taken es := by
  rw [elementList]
  simp only [reads_bind, Read.exists]
  constructor
  · rintro ⟨u, mid, h, hopen, hrest⟩
    obtain ⟨p, rfl⟩ := reads_expect.1 ⟨h, hopen⟩
    rcases accept_cases (s := .punct .closeBrace) (by simp) mid with
      ⟨q, us, h', rfl, hacc⟩ | ⟨hne, hacc⟩
    · rw [hacc, reads_pure] at hrest
      obtain ⟨rfl, rfl⟩ := hrest
      exact ⟨braced p [] q, rfl, .empty⟩
    · rw [hacc] at hrest
      simp only [reads_bind, Read.exists, reads_pure] at hrest
      obtain ⟨es', mid', h', hread, u', end', h'', hclose, rfl, rfl⟩ := hrest
      obtain ⟨q, rfl⟩ := reads_expect.1 ⟨h'', hclose⟩
      obtain ⟨taken, rfl, hform⟩ := elements_sound ⟨h', hread⟩
      exact ⟨braced p taken q, (braced_append ..).symm, .some hform⟩
  · rintro ⟨taken, rfl, hform⟩
    cases hform with
    | @empty p q =>
      obtain ⟨h, hopen⟩ : Reads (expect .openBrace .startOfElements (braced p [] q ++ rest)) ()
          (⟨.punct .closeBrace, q⟩ :: rest) := reads_expect.2 ⟨p, rfl⟩
      refine ⟨_, _, h, hopen, ?_⟩
      rw [accept_punct]
      exact reads_pure.2 ⟨rfl, rfl⟩
    | @some taken _ p q hform =>
      rw [braced_append]
      obtain ⟨h, hopen⟩ : Reads (expect .openBrace .startOfElements (⟨.punct .openBrace, p⟩ ::
          (taken ++ ⟨.punct .closeBrace, q⟩ :: rest))) ()
          (taken ++ ⟨.punct .closeBrace, q⟩ :: rest) := reads_expect.2 ⟨p, rfl⟩
      refine ⟨_, _, h, hopen, ?_⟩
      rw [accept_eq_none (symbol_of_elementsForm hform _)]
      simp only [reads_bind, Read.exists, reads_pure, exists_and_right, exists_reads, reads_expect]
      exact ⟨es, _, reads_of_elementsForm hform (by simp), (), rest, ⟨q, rfl⟩, rfl, rfl⟩

/-! ## Declarations -/

theorem reads_arrayForm {name : String} {line : Nat} {f : Form} {o p : Position} :
    Reads (arrayForm table name line ts) (f, table') (⟨.punct .semicolon, p⟩ :: rest) ↔
      ∃ taken, ⟨.punct .openBracket, o⟩ :: ts = taken ++ ⟨.punct .semicolon, p⟩ :: rest ∧
        InitForm taken f ∧ table.Follows (f.mentions name) table' := by
  rw [arrayForm]
  simp only [reads_bind, Read.exists]
  constructor
  · rintro ⟨size, mid, h, hsize, u, mid', h', hclose, next, hnext, hrest⟩
    obtain ⟨text, q, rfl, htext⟩ := reads_arraySize.1 ⟨h, hsize⟩
    obtain ⟨r, rfl⟩ := reads_expect.1 ⟨h', hclose⟩
    have hdeclare : table.declare name (.array size) = .ok next := declared_eq_ok.1 hnext
    rcases accept_cases (s := .operator "=") (by simp) mid' with
      ⟨s, us, h'', rfl, hacc⟩ | ⟨hne, hacc⟩
    · rw [hacc] at hrest
      simp only [reads_bind, Read.exists, reads_pure, exists_and_right, exists_reads,
        Prod.mk.injEq] at hrest
      obtain ⟨es, end', hes, ⟨rfl, rfl⟩, rfl⟩ := hrest
      obtain ⟨taken, rfl, hform⟩ := reads_elementList.1 hes
      exact ⟨_ :: _ :: _ :: _ :: taken, rfl, .elements htext hform, _, hdeclare, rfl⟩
    · rw [hacc, reads_pure, Prod.mk.injEq] at hrest
      obtain ⟨⟨rfl, rfl⟩, rfl⟩ := hrest
      exact ⟨[_, _, _], rfl, .array htext, _, hdeclare, rfl⟩
  · rintro ⟨taken, heq, hform, hfollows⟩
    cases hform with
    | scalar | value _ => cases heq
    | @array text _ _ q r htext =>
      simp only [List.cons_append, List.nil_append, List.cons.injEq] at heq
      obtain ⟨-, rfl⟩ := heq
      obtain ⟨next, hdeclare, rfl⟩ := hfollows
      obtain ⟨h, hsize⟩ := reads_arraySize.2 ⟨text, q, rfl, htext⟩
      obtain ⟨h', hclose⟩ := reads_expect.2 ⟨r, rfl⟩
      refine ⟨_, _, h, hsize, (), _, h', hclose, _, declared_eq_ok.2 hdeclare, ?_⟩
      rw [accept_eq_none (by simp)]
      exact reads_pure.2 ⟨rfl, rfl⟩
    | @elements text _ _ es _ q r s htext helements =>
      simp only [List.cons_append, List.cons.injEq] at heq
      obtain ⟨-, rfl⟩ := heq
      obtain ⟨next, hdeclare, rfl⟩ := hfollows
      obtain ⟨h, hsize⟩ := reads_arraySize.2 ⟨text, q, rfl, htext⟩
      obtain ⟨h', hclose⟩ := reads_expect.2 ⟨r, rfl⟩
      refine ⟨_, _, h, hsize, (), _, h', hclose, _, declared_eq_ok.2 hdeclare, ?_⟩
      rw [accept_operator]
      simp only [reads_bind, Read.exists, reads_pure, exists_and_right, exists_reads]
      exact ⟨es, _, reads_elementList.2 ⟨_, rfl, helements⟩, rfl, rfl⟩

theorem passes_form {name : String} {line : Nat} {f : Form} {p : Position} :
    Passes (form table name line ts) (f, table') (⟨.punct .semicolon, p⟩ :: rest) ↔
      ∃ taken, ts = taken ++ ⟨.punct .semicolon, p⟩ :: rest ∧ InitForm taken f ∧
        table.Follows (f.mentions name) table' := by
  rw [form]
  rcases accept_cases (s := .punct .openBracket) (by simp) ts with
    ⟨o, us, h, rfl, hacc⟩ | ⟨hne, hacc⟩
  · rw [hacc]
    simp only [passes_bind, Read.exists, passes_pure, exists_and_right, exists_reads]
    rw [← reads_arrayForm]
    constructor
    · rintro ⟨answer, mid, hread, rfl, rfl⟩
      exact hread
    · intro hread
      exact ⟨_, _, hread, rfl, rfl⟩
  · rw [hacc]
    simp only [passes_bind, declared_eq_ok]
    constructor
    · rintro ⟨next, hdeclare, hrest⟩
      rcases accept_cases (s := .operator "=") (by simp) ts with ⟨q, us, h, rfl, hacc⟩ | ⟨-, hacc⟩
      · rw [hacc] at hrest
        simp only [passes_bind, Read.exists, passes_pure, exists_and_right, exists_reads,
          Prod.mk.injEq] at hrest
        obtain ⟨e, mid, hread, ⟨rfl, rfl⟩, rfl⟩ := hrest
        obtain ⟨taken, rfl, hat, hin⟩ := (reads_value_before .semicolon (by simp) (by simp)).1 hread
        exact ⟨_ :: taken, rfl, .value hat, _, hdeclare,
          ShapeTable.follows_mentions.2 ⟨hin, rfl⟩⟩
      · rw [hacc] at hrest
        obtain ⟨heq, rfl⟩ := passes_pure.1 hrest
        cases heq
        exact ⟨[], rfl, .scalar, _, hdeclare, rfl⟩
    · rintro ⟨taken, rfl, hform, hfollows⟩
      cases hform with
      | scalar =>
        obtain ⟨next, hdeclare, rfl⟩ := hfollows
        refine ⟨_, hdeclare, ?_⟩
        rw [List.nil_append, accept_eq_none (by simp)]
        exact passes_pure.2 ⟨rfl, rfl⟩
      | value hat =>
        obtain ⟨next, hdeclare, hfollows⟩ := hfollows
        obtain ⟨hin, rfl⟩ := ShapeTable.follows_mentions.1 hfollows
        refine ⟨_, hdeclare, ?_⟩
        rw [List.cons_append, accept_operator]
        simp only [passes_bind, Read.exists, passes_pure, exists_and_right, exists_reads]
        exact ⟨_, _, (reads_value_before .semicolon (by simp) (by simp)).2 ⟨_, rfl, hat, hin⟩,
          rfl, rfl⟩
      | array _ | elements _ _ => exact absurd rfl hne

/-- A declaration is read by its grammar, from after its type on. -/
theorem reads_declaration {type : ScalarType} {p : Position} (htype : type ≠ .void)
    {d : Declaration} :
    Reads (declaration table type p ts) (d, table') rest ↔
      ∃ taken, ts = taken ++ rest ∧ DeclarationForm (⟨.keyword (.type type), p⟩ :: taken) d ∧
        table.Follows d.mentions table' := by
  rw [declaration]
  simp only [reads_bind, Read.exists, Pass.exists, Prod.exists, reads_pure, exists_and_right,
    exists_reads, exists_passes, Prod.mk.injEq]
  constructor
  · rintro ⟨n, l, mid, hname, f, next, mid', hform, u, mid'', hsemi, ⟨rfl, rfl⟩, rfl⟩
    obtain ⟨q, rfl, rfl⟩ := reads_declaredName.1 hname
    obtain ⟨r, rfl⟩ := reads_expect.1 hsemi
    obtain ⟨taken, rfl, hform, hfollows⟩ := passes_form.1 hform
    refine ⟨⟨.name n, q⟩ :: (taken ++ [⟨.punct .semicolon, r⟩]), ?_, .mk htype hform, hfollows⟩
    rw [List.cons_append, List.append_assoc, List.singleton_append]
  · rintro ⟨taken, rfl, hform, hfollows⟩
    cases hform with
    | @mk _ n us f _ q r _ hinit =>
      rw [List.cons_append, List.append_assoc, List.singleton_append]
      exact ⟨n, q.line, _, reads_declaredName.2 ⟨q, rfl, rfl⟩, f, table', _,
        passes_form.2 ⟨us, rfl, hinit, hfollows⟩, (), rest, reads_expect.2 ⟨r, rfl⟩,
        ⟨rfl, rfl⟩, rfl⟩

end Parse

end ClockedC
