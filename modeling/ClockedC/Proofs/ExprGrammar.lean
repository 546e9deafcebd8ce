import ClockedC.Proofs.Reading

/-!
# The grammar of expressions

Expressions are layered by how tightly their operators bind. An expression of level `k` from 1 to 10
is one of level `k + 1`, or an expression of level `k`, an operator of level `k` and an expression
of level `k + 1`; operators of one level therefore group to the left. On level 11 stand the
operands.

* `ExprAt` says which tokens are an expression of a level, and which one.
* `Expr.literalAccesses` lists the array accesses whose index was written as a literal.
* `ExprAt.insideBrackets_append` says that an index ends at the bracket that a count of brackets and
  parentheses finds.
* `ExprAt.writtenLiteral?_spelled` says that the text of an index tells whether it is a literal.
-/

namespace ClockedC

/-- The level of operands, above that of all binary operators. -/
def operandLevel : Nat := 11

theorem BinaryOp.level_lt_operandLevel (op : BinaryOp) : op.level < operandLevel := by
  cases op <;> decide

theorem BinaryOp.ofSpelling?_eq_some {spelling : String} {op : BinaryOp} :
    ofSpelling? spelling = some op ↔ spelling = op.spelling := by
  constructor
  · intro h
    have hfound := List.find?_some h
    exact (of_decide_eq_true hfound).symm
  · rintro rfl
    exact ofSpelling?_spelling op

theorem UnaryOp.ofSpelling?_eq_some {spelling : String} {op : UnaryOp} :
    ofSpelling? spelling = some op ↔ spelling = op.spelling := by
  constructor
  · intro h
    have hfound := List.find?_some h
    exact (of_decide_eq_true hfound).symm
  · rintro rfl
    exact ofSpelling?_spelling op

/-- The text of some tokens, blanks left out. -/
def spelled (ts : List Token) : String :=
  String.join ((ts.map Token.symbol).map Symbol.spelling)

mutual

/-- `ExprAt k ts e` says that the tokens `ts` are the expression `e` of level `k`. A call stands
where its name does, and an element keeps the text of its index. -/
inductive ExprAt : Nat → List Token → Expr → Prop
  | tighter {k : Nat} {ts : List Token} {e : Expr} (hk : k < operandLevel)
      (h : ExprAt (k + 1) ts e) : ExprAt k ts e
  | binary {k : Nat} {l r : List Token} {e₁ e₂ : Expr} {op : BinaryOp} {p : Position}
      (hk : op.level = k) (left : ExprAt k l e₁) (right : ExprAt (k + 1) r e₂) :
      ExprAt k (l ++ ⟨.operator op.spelling, p⟩ :: r) (.binary op e₁ e₂)
  | unary {ts : List Token} {e : Expr} {op : UnaryOp} {p : Position}
      (operand : ExprAt operandLevel ts e) :
      ExprAt operandLevel (⟨.operator op.spelling, p⟩ :: ts) (.unary op e)
  | parens {ts : List Token} {e : Expr} {p q : Position} (inner : ExprAt BinaryOp.loosest ts e) :
      ExprAt operandLevel (⟨.punct .openParen, p⟩ :: ts ++ [⟨.punct .closeParen, q⟩]) e
  | number {text : String} {p : Position} : ExprAt operandLevel [⟨.number text, p⟩] (.number text)
  | character {c : Char} {p : Position} :
      ExprAt operandLevel [⟨.character c, p⟩] (.number (toString c.toNat))
  | name {n : String} {p : Position} : ExprAt operandLevel [⟨.name n, p⟩] (.name n)
  | call {n : String} {ts : List Token} {es : List Expr} {p q r : Position}
      (args : ArgumentsAt ts es) :
      ExprAt operandLevel
        (⟨.name n, p⟩ :: ⟨.punct .openParen, q⟩ :: ts ++ [⟨.punct .closeParen, r⟩])
        (.call n es none p)
  | constant {n : String} {p q r : Position} :
      ExprAt operandLevel [⟨.name n, p⟩, ⟨.punct .openParen, q⟩, ⟨.punct .closeParen, r⟩]
        (.call n [] none p)
  | element {n : String} {ts : List Token} {e : Expr} {p q r : Position}
      (index : ExprAt BinaryOp.loosest ts e) :
      ExprAt operandLevel
        (⟨.name n, p⟩ :: ⟨.punct .openBracket, q⟩ :: ts ++ [⟨.punct .closeBracket, r⟩])
        (.element n e (spelled ts))

/-- One or more expressions with commas between them. -/
inductive ArgumentsAt : List Token → List Expr → Prop
  | one {ts : List Token} {e : Expr} (h : ExprAt BinaryOp.loosest ts e) : ArgumentsAt ts [e]
  | more {ts us : List Token} {e : Expr} {es : List Expr} {p : Position}
      (first : ExprAt BinaryOp.loosest ts e) (others : ArgumentsAt us es) :
      ArgumentsAt (ts ++ ⟨.punct .comma, p⟩ :: us) (e :: es)

end

/-! ## First and last tokens -/

theorem Symbol.opensOperand_operator (spelling : String) :
    (Symbol.operator spelling).opensOperand = (UnaryOp.ofSpelling? spelling).isSome := rfl

/-- An expression begins with a symbol that an operand can begin with. -/
theorem ExprAt.opens : ∀ {k : Nat} {ts : List Token} {e : Expr}, ExprAt k ts e →
    ∃ t tail, ts = t :: tail ∧ t.symbol.opensOperand = true
  | _, _, _, .tighter _ h => ExprAt.opens h
  | _, _, _, .binary _ left _ => by
    obtain ⟨t, tail, rfl, ht⟩ := ExprAt.opens left
    exact ⟨t, _, rfl, ht⟩
  | _, _, _, .unary _ => by
    refine ⟨_, _, rfl, ?_⟩
    rw [Symbol.opensOperand_operator, UnaryOp.ofSpelling?_spelling, Option.isSome_some]
  | _, _, _, .parens _ | _, _, _, .number | _, _, _, .character | _, _, _, .name
  | _, _, _, .call _ | _, _, _, .constant | _, _, _, .element _ => ⟨_, _, rfl, rfl⟩

theorem ExprAt.ne_nil {k : Nat} {ts : List Token} {e : Expr} (h : ExprAt k ts e) : ts ≠ [] := by
  obtain ⟨t, tail, rfl, -⟩ := h.opens
  exact nofun

/-- The only punctuation mark that an expression begins with is an opening parenthesis. -/
theorem ExprAt.symbol_append_ne {k : Nat} {ts : List Token} {e : Expr} (h : ExprAt k ts e)
    (mark : Punct) (hmark : mark ≠ .openParen) (rest : List Token) :
    Cursor.symbol (ts ++ rest) ≠ .punct mark := by
  obtain ⟨t, tail, rfl, ht⟩ := h.opens
  rintro (hs : t.symbol = .punct mark)
  rw [hs] at ht
  cases mark with
  | openParen => exact hmark rfl
  | _ => cases ht

/-- An expression of a level is one of each lower level. -/
theorem ExprAt.loosen {k m : Nat} {ts : List Token} {e : Expr} (h : ExprAt k ts e) (hmk : m ≤ k)
    (hk : k ≤ operandLevel) : ExprAt m ts e := by
  obtain ⟨d, rfl⟩ := Nat.exists_eq_add_of_le hmk
  induction d with
  | zero => exact h
  | succ d ih => exact ih (.tighter (by omega) h) (by omega) (by omega)

/-- The last token is a name. -/
def EndsInName (ts : List Token) : Prop :=
  ∃ name position, ts.getLast? = some ⟨.name name, position⟩

theorem endsInName_append {ts us : List Token} (h : us ≠ []) :
    EndsInName (ts ++ us) ↔ EndsInName us := by
  rw [EndsInName, EndsInName, List.getLast?_append, List.getLast?_eq_some_getLast h]
  rfl

theorem endsInName_cons {t : Token} {us : List Token} (h : us ≠ []) :
    EndsInName (t :: us) ↔ EndsInName us := by
  rw [← List.singleton_append, endsInName_append h]

/-- The tokens `ts` can end an expression before `rest`: a name at their end would otherwise be the
name of a function or of an array. -/
def MayEnd (ts rest : List Token) : Prop :=
  EndsInName ts →
    Cursor.symbol rest ≠ .punct .openParen ∧ Cursor.symbol rest ≠ .punct .openBracket

theorem mayEnd_append_iff {ts us rest : List Token} (h : us ≠ []) :
    MayEnd (ts ++ us) rest ↔ MayEnd us rest := by
  rw [MayEnd, MayEnd, endsInName_append h]

theorem mayEnd_cons_iff {t : Token} {us rest : List Token} (h : us ≠ []) :
    MayEnd (t :: us) rest ↔ MayEnd us rest := by
  rw [MayEnd, MayEnd, endsInName_cons h]

/-- Whatever follows, a token that is no name can end an expression. -/
theorem mayEnd_of_last {ts rest : List Token} {t : Token} (h : ∀ n, t.symbol ≠ .name n) :
    MayEnd (ts ++ [t]) rest := by
  rw [mayEnd_append_iff (List.cons_ne_nil t [])]
  rintro ⟨n, p, hlast⟩
  cases hlast
  exact absurd rfl (h n)

/-! ## Indices -/

namespace Parse

theorem insideBrackets_open {mark : Punct} (h : mark = .openParen ∨ mark = .openBracket)
    (d : Nat) (p : Position) (ts : List Token) :
    insideBrackets d (⟨.punct mark, p⟩ :: ts) =
      (insideBrackets (d + 1) ts).map (⟨.punct mark, p⟩ :: ·) := by
  rcases h with rfl | rfl
  · rfl
  · rfl

theorem insideBrackets_close {mark : Punct} (h : mark = .closeParen ∨ mark = .closeBracket)
    (d : Nat) (p : Position) (ts : List Token) :
    insideBrackets (d + 1) (⟨.punct mark, p⟩ :: ts) =
      (insideBrackets d ts).map (⟨.punct mark, p⟩ :: ·) := by
  rcases h with rfl | rfl
  · rfl
  · rfl

theorem insideBrackets_operator (d : Nat) (spelling : String) (p : Position) (ts : List Token) :
    insideBrackets d (⟨.operator spelling, p⟩ :: ts) =
      (insideBrackets d ts).map (⟨.operator spelling, p⟩ :: ·) := rfl

theorem insideBrackets_name (d : Nat) (n : String) (p : Position) (ts : List Token) :
    insideBrackets d (⟨.name n, p⟩ :: ts) = (insideBrackets d ts).map (⟨.name n, p⟩ :: ·) := rfl

theorem insideBrackets_comma (d : Nat) (p : Position) (ts : List Token) :
    insideBrackets d (⟨.punct .comma, p⟩ :: ts) =
      (insideBrackets d ts).map (⟨.punct .comma, p⟩ :: ·) := rfl

end Parse

mutual

/-- The count of open brackets and parentheses is the same before and after an expression, and the
expression holds no bracket that ends an index around it. -/
theorem ExprAt.insideBrackets_append : ∀ {k : Nat} {ts : List Token} {e : Expr},
    ExprAt k ts e → ∀ (d : Nat) (rest : List Token),
      Parse.insideBrackets d (ts ++ rest) = (Parse.insideBrackets d rest).map (ts ++ ·)
  | _, _, _, .tighter _ h, d, rest => ExprAt.insideBrackets_append h d rest
  | _, _, _, .binary _ left right, d, rest => by
    rw [List.append_assoc, ExprAt.insideBrackets_append left, List.cons_append,
      Parse.insideBrackets_operator, ExprAt.insideBrackets_append right]
    simp only [Option.map_map, Function.comp_def, List.append_assoc, List.cons_append]
  | _, _, _, .unary operand, d, rest => by
    rw [List.cons_append, Parse.insideBrackets_operator, ExprAt.insideBrackets_append operand]
    simp only [Option.map_map, Function.comp_def, List.cons_append]
  | _, _, _, .parens inner, d, rest => by
    rw [List.append_assoc, List.cons_append, Parse.insideBrackets_open (Or.inl rfl),
      ExprAt.insideBrackets_append inner, List.singleton_append,
      Parse.insideBrackets_close (Or.inl rfl)]
    simp only [Option.map_map, Function.comp_def, List.cons_append, List.append_assoc,
      List.nil_append]
  | _, _, _, .number, d, rest | _, _, _, .character, d, rest | _, _, _, .name, d, rest => rfl
  | _, _, _, .call args, d, rest => by
    rw [List.append_assoc, List.cons_append, Parse.insideBrackets_name, List.cons_append,
      Parse.insideBrackets_open (Or.inl rfl), ArgumentsAt.insideBrackets_append args,
      List.singleton_append, Parse.insideBrackets_close (Or.inl rfl)]
    simp only [Option.map_map, Function.comp_def, List.cons_append, List.append_assoc,
      List.nil_append]
  | _, _, _, .constant, d, rest => by
    rw [List.cons_append, Parse.insideBrackets_name, List.cons_append,
      Parse.insideBrackets_open (Or.inl rfl), List.cons_append,
      Parse.insideBrackets_close (Or.inl rfl)]
    simp only [Option.map_map, Function.comp_def, List.cons_append, List.nil_append]
  | _, _, _, .element index, d, rest => by
    rw [List.append_assoc, List.cons_append, Parse.insideBrackets_name, List.cons_append,
      Parse.insideBrackets_open (Or.inr rfl), ExprAt.insideBrackets_append index,
      List.singleton_append, Parse.insideBrackets_close (Or.inr rfl)]
    simp only [Option.map_map, Function.comp_def, List.cons_append, List.append_assoc,
      List.nil_append]

theorem ArgumentsAt.insideBrackets_append : ∀ {ts : List Token} {es : List Expr},
    ArgumentsAt ts es → ∀ (d : Nat) (rest : List Token),
      Parse.insideBrackets d (ts ++ rest) = (Parse.insideBrackets d rest).map (ts ++ ·)
  | _, _, .one h, d, rest => ExprAt.insideBrackets_append h d rest
  | _, _, .more first others, d, rest => by
    rw [List.append_assoc, ExprAt.insideBrackets_append first, List.cons_append,
      Parse.insideBrackets_comma, ArgumentsAt.insideBrackets_append others]
    simp only [Option.map_map, Function.comp_def, List.append_assoc, List.cons_append]

end

/-- The tokens up to the bracket after an index are those of the index. -/
theorem ExprAt.insideBrackets_eq {k : Nat} {ts : List Token} {e : Expr} (h : ExprAt k ts e)
    (p : Position) (rest : List Token) :
    Parse.insideBrackets 0 (ts ++ ⟨.punct .closeBracket, p⟩ :: rest) = some ts := by
  rw [h.insideBrackets_append]
  exact congrArg some (List.append_nil ts)

/-! ## Literal indices -/

/-- The value of an index that was written as a literal: a numeral with at most a minus sign before
it, and with nothing around it. -/
def Expr.writtenLiteral? (text : String) : Expr → Option Int
  | .number n => if text = n then signed64? n else none
  | .unary .neg (.number n) => if text = "-" ++ n then (signed64? n).map negate64 else none
  | _ => none

mutual

/-- The array accesses of an expression whose index was written as a literal: the name of the array
and the value of the index. -/
def Expr.literalAccesses : Expr → List (String × Int)
  | .number _ | .name _ => []
  | .element base index text =>
    ((index.writtenLiteral? text).map (base, ·)).toList ++ index.literalAccesses
  | .call _ args _ _ => Expr.literalAccessesOfList args
  | .unary _ operand => operand.literalAccesses
  | .binary _ left right => left.literalAccesses ++ right.literalAccesses

/-- The literal accesses of a list of expressions. -/
def Expr.literalAccessesOfList : List Expr → List (String × Int)
  | [] => []
  | e :: es => e.literalAccesses ++ Expr.literalAccessesOfList es

end

/-- The literal accesses of an expression lie in their arrays, as far as a table knows these. -/
def Expr.InBounds (table : ShapeTable) (e : Expr) : Prop :=
  ∀ a ∈ e.literalAccesses, table.inBounds a.1 a.2 = true

/-- `Expr.InBounds` for each of a list of expressions. -/
def Expr.AllInBounds (table : ShapeTable) (es : List Expr) : Prop :=
  ∀ a ∈ Expr.literalAccessesOfList es, table.inBounds a.1 a.2 = true

section InBounds

variable {table : ShapeTable}

theorem Expr.inBounds_empty (e : Expr) : e.InBounds .empty :=
  fun _ _ => rfl

theorem Expr.inBounds_binary {op : BinaryOp} {l r : Expr} :
    (Expr.binary op l r).InBounds table ↔ l.InBounds table ∧ r.InBounds table := by
  rw [InBounds, literalAccesses, List.forall_mem_append]
  rfl

theorem Expr.inBounds_element {base : String} {i : Expr} {text : String} :
    (Expr.element base i text).InBounds table ↔
      (∀ v, i.writtenLiteral? text = some v → table.inBounds base v = true) ∧
        i.InBounds table := by
  rw [InBounds, literalAccesses, List.forall_mem_append]
  refine and_congr ?_ Iff.rfl
  cases i.writtenLiteral? text with
  | none => simp
  | some v => simp

theorem Expr.allInBounds_cons {e : Expr} {es : List Expr} :
    Expr.AllInBounds table (e :: es) ↔ e.InBounds table ∧ Expr.AllInBounds table es := by
  rw [AllInBounds, literalAccessesOfList, List.forall_mem_append]
  rfl

end InBounds

theorem spelled_cons (t : Token) (ts : List Token) :
    spelled (t :: ts) = t.symbol.spelling ++ spelled ts := by
  rw [spelled, List.map_cons, List.map_cons, String.join_cons]
  rfl

theorem spelled_append (ts us : List Token) : spelled (ts ++ us) = spelled ts ++ spelled us := by
  rw [spelled, List.map_append, List.map_append, String.join_append]
  rfl

theorem spelled_number (n : String) (p : Position) : spelled [⟨.number n, p⟩] = n := by
  rw [spelled_cons]
  exact String.append_empty

theorem toList_spelling_character (c : Char) :
    (Symbol.character c).spelling.toList = ['\'', c, '\''] := by
  have hc : (toString c).toList = [c] := String.toList_singleton c
  have hq : (toString "'").toList = ['\''] := by decide
  rw [Symbol.spelling, String.toList_append, String.toList_append, hc, hq]
  rfl

theorem toList_spelling_openParen : (Symbol.punct .openParen).spelling.toList = ['('] := by
  decide

theorem isDigit_of_mem_toString {n : Nat} {c : Char} (h : c ∈ (toString n).toList) :
    c.isDigit = true := by
  rw [show toString n = n.repr from rfl, Nat.toList_repr] at h
  exact Nat.isDigit_of_mem_toDigits (by decide) (by decide) h

/-- What is read as a number is written as one, or longer than one, or it is a character literal
and does not begin with a digit. -/
theorem ExprAt.number_cases : ∀ {k : Nat} {ts : List Token} {e : Expr}, ExprAt k ts e →
    ∀ n, e = .number n → (∃ p, ts = [⟨.number n, p⟩]) ∨ n.length < (spelled ts).length ∨
      ∃ m c cs, n = toString (m : Nat) ∧ (spelled ts).toList = c :: cs ∧ c.isDigit = false
  | _, _, _, .tighter _ h, n, he => ExprAt.number_cases h n he
  | _, _, _, .number, n, he => by
    cases he
    exact Or.inl ⟨_, rfl⟩
  | _, _, _, @ExprAt.character c _, n, he => by
    cases he
    refine Or.inr (Or.inr ⟨c.toNat, '\'', [c, '\''], rfl, ?_, by decide⟩)
    rw [spelled_cons, String.toList_append, toList_spelling_character]
    rfl
  | _, _, _, .parens inner, n, he => by
    rw [spelled_append, spelled_cons]
    -- one more pair of parentheses makes a numeral longer, and puts `(` before a character
    rcases ExprAt.number_cases inner n he with ⟨p, rfl⟩ | hlen | ⟨m, c, cs, hn, -, -⟩
    · refine Or.inr (Or.inl ?_)
      have hopen : (Symbol.punct .openParen).spelling.length = 1 := by decide
      rw [spelled_number, String.length_append, String.length_append, hopen]
      omega
    · refine Or.inr (Or.inl ?_)
      rw [String.length_append, String.length_append]
      omega
    · refine Or.inr (Or.inr ⟨m, '(', ?_⟩)
      rw [String.toList_append, String.toList_append, toList_spelling_openParen]
      exact ⟨_, hn, rfl, by decide⟩

theorem ExprAt.eq_number_of_spelled {k : Nat} {ts : List Token} {n : String}
    (h : ExprAt k ts (.number n)) (hs : spelled ts = n) : ∃ p, ts = [⟨.number n, p⟩] := by
  rcases h.number_cases n rfl with hp | hlen | ⟨m, c, cs, hn, hcs, hc⟩
  · exact hp
  · rw [hs] at hlen
    exact absurd hlen (Nat.lt_irrefl _)
  · have hmem : c ∈ (toString m).toList := by
      rw [← hn, ← hs, hcs]
      exact List.mem_cons_self
    rw [isDigit_of_mem_toString hmem] at hc
    cases hc

theorem ExprAt.eq_negated_of_spelled : ∀ {k : Nat} {ts : List Token} {e : Expr}, ExprAt k ts e →
    ∀ n, e = .unary .neg (.number n) → spelled ts = "-" ++ n →
      ∃ p q, ts = [⟨.operator "-", p⟩, ⟨.number n, q⟩]
  | _, _, _, .tighter _ h, n, he, hs => ExprAt.eq_negated_of_spelled h n he hs
  | _, _, _, .unary operand, n, he, hs => by
    cases he
    rw [spelled_cons] at hs
    obtain ⟨q, rfl⟩ := operand.eq_number_of_spelled (String.append_right_inj _ |>.1 hs)
    exact ⟨_, q, rfl⟩
  | _, _, _, .parens inner, n, he, hs => by
    rw [spelled_append, spelled_cons] at hs
    have hlist := congrArg String.toList hs
    have hminus : "-".toList = ['-'] := by decide
    rw [String.toList_append, String.toList_append, String.toList_append,
      toList_spelling_openParen, hminus] at hlist
    injection hlist with hhead
    exact absurd hhead (by decide)

theorem ExprAt.eq_of_number : ∀ {k : Nat} {ts : List Token} {e : Expr}, ExprAt k ts e →
    ∀ n p, ts = [⟨.number n, p⟩] → e = .number n
  | _, _, _, .tighter _ h, n, p, hts => ExprAt.eq_of_number h n p hts
  | _, _, _, .binary _ left right, n, p, hts => by
    have hl := List.length_pos_iff.2 left.ne_nil
    have hlen := congrArg List.length hts
    simp only [List.length_append, List.length_cons, List.length_nil] at hlen
    omega
  | _, _, _, .number, n, p, hts => by
    cases hts
    rfl

theorem ExprAt.eq_of_negated : ∀ {k : Nat} {ts : List Token} {e : Expr}, ExprAt k ts e →
    ∀ n p q, ts = [⟨.operator "-", p⟩, ⟨.number n, q⟩] → e = .unary .neg (.number n)
  | _, _, _, .tighter _ h, n, p, q, hts => ExprAt.eq_of_negated h n p q hts
  | _, _, _, .binary _ left right, n, p, q, hts => by
    have hl := List.length_pos_iff.2 left.ne_nil
    have hr := List.length_pos_iff.2 right.ne_nil
    have hlen := congrArg List.length hts
    simp only [List.length_append, List.length_cons, List.length_nil] at hlen
    omega
  | _, _, _, @ExprAt.unary _ _ op _ operand, n, p, q, hts => by
    injection hts with hhead htail
    injection hhead with hsymbol _
    injection hsymbol with hspelling
    rw [operand.eq_of_number n q htail]
    cases op with
    | neg => rfl
    | not => exact absurd hspelling (by decide)
    | bitNot => exact absurd hspelling (by decide)

/-- The text of an index tells whether it was written as a literal. -/
theorem ExprAt.writtenLiteral?_spelled {k : Nat} {ts : List Token} {e : Expr}
    (h : ExprAt k ts e) :
    e.writtenLiteral? (spelled ts) = Parse.literalIndex? (ts.map Token.symbol) := by
  by_cases hnumber : ∃ n p, ts = [⟨.number n, p⟩]
  · obtain ⟨n, p, rfl⟩ := hnumber
    rw [h.eq_of_number n p rfl, spelled_number]
    exact if_pos rfl
  by_cases hnegated : ∃ n p q, ts = [⟨.operator "-", p⟩, ⟨.number n, q⟩]
  · obtain ⟨n, p, q, rfl⟩ := hnegated
    rw [h.eq_of_negated n p q rfl, spelled_cons, spelled_number]
    exact if_pos rfl
  -- in all other cases there is no literal on either side
  have hwritten : e.writtenLiteral? (spelled ts) = none := by
    unfold Expr.writtenLiteral?
    split
    · rename_i n
      refine if_neg fun hs => hnumber ?_
      exact ⟨n, h.eq_number_of_spelled hs⟩
    · rename_i n
      refine if_neg fun hs => hnegated ?_
      exact ⟨n, h.eq_negated_of_spelled n rfl hs⟩
    · rfl
  have hliteral : Parse.literalIndex? (ts.map Token.symbol) = none := by
    unfold Parse.literalIndex?
    split
    · rename_i n hts
      obtain ⟨t, rfl, ht⟩ := List.map_eq_singleton_iff.1 hts
      exact absurd ⟨n, t.position, by rw [← ht]⟩ hnumber
    · rename_i n hts
      obtain ⟨t, us, rfl, ht, hus⟩ := List.map_eq_cons_iff.1 hts
      obtain ⟨u, rfl, hu⟩ := List.map_eq_singleton_iff.1 hus
      exact absurd ⟨n, t.position, u.position, by rw [← ht, ← hu]⟩ hnegated
    · rfl
  rw [hwritten, hliteral]

end ClockedC
