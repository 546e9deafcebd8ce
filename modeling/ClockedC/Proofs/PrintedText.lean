import ClockedC.Proofs.SourceTerms

/-!
# The tokens of a printed expression

The text of an expression has blanks around binary operators and after commas, and nowhere else. So
the scanner has to find by itself where one token ends and the next begins. It finds them as they
were meant, with one exception: a minus sign right before another one is taken for the operator that
steps a name down.

* `Expr.printed` lists the symbols of the text of an expression.
* `Scan.Yields` says which symbols some characters are before others.
* `Expr.Legible`: names, numbers and calls are as in a source.
* `Expr.Legible.yields`: the text of a legible expression is scanned into its printed symbols.
-/

namespace ClockedC

/-! ## Symbols -/

namespace Expr

mutual

/-- The symbols of the text of an expression. -/
def printed : Expr → List Symbol
  | number text => [.number text]
  | name n => [.name n]
  | element base index _ =>
    .name base :: .punct .openBracket :: (index.printed ++ [.punct .closeBracket])
  | call callee args _ _ =>
    .name callee :: .punct .openParen :: (printedList args ++ [.punct .closeParen])
  | unary .neg (unary .neg operand) => .operator "--" :: operand.printed
  | unary op operand => .operator op.spelling :: operand.printed
  | binary op left right =>
    .punct .openParen :: (left.printed ++ .operator op.spelling ::
      (right.printed ++ [.punct .closeParen]))

/-- The symbols of expressions with commas between them. -/
def printedList : List Expr → List Symbol
  | [] => []
  | [e] => e.printed
  | e :: es => e.printed ++ .punct .comma :: printedList es

end

/-- Whether an expression is a negation of numbers. -/
def isNegation : Expr → Bool
  | unary .neg _ => true
  | _ => false

theorem isNegation_iff {e : Expr} : e.isNegation = true ↔ ∃ e', e = unary .neg e' := by
  constructor
  · intro h
    unfold isNegation at h
    split at h
    · exact ⟨_, rfl⟩
    · cases h
  · rintro ⟨e', rfl⟩
    rfl

theorem printed_unary {op : UnaryOp} {e : Expr} (h : op = .neg → e.isNegation = false) :
    (unary op e).printed = .operator op.spelling :: e.printed := by
  rw [printed]
  rintro e' rfl rfl
  cases h rfl

end Expr

/-! ## Characters before other characters -/

namespace Scan

/-- Wherever the characters `x` stand before `rest`, they are the symbols `ss`. -/
def Yields (x : List Char) (ss : List Symbol) (rest : List Char) : Prop :=
  ∀ before, ∃ ts, ts.map Token.symbol = ss ∧
    ∀ us, Covers (before ++ x) rest us → Covers before (x ++ rest) (ts ++ us)

theorem yields_nil (rest : List Char) : Yields [] [] rest := by
  intro before
  refine ⟨[], rfl, fun us h => ?_⟩
  rwa [List.append_nil] at h

theorem Yields.append {x y rest : List Char} {ss ss' : List Symbol} (h : Yields x ss (y ++ rest))
    (h' : Yields y ss' rest) : Yields (x ++ y) (ss ++ ss') rest := by
  intro before
  obtain ⟨ts, hts, hx⟩ := h before
  obtain ⟨ts', hts', hy⟩ := h' (before ++ x)
  refine ⟨ts ++ ts', by rw [List.map_append, hts, hts'], fun us hus => ?_⟩
  rw [List.append_assoc, List.append_assoc]
  refine hx _ (hy us ?_)
  rwa [List.append_assoc]

theorem Covers.blank {c : Char} {before rest : List Char} {ts : List Token}
    (hc : isBlank c = true) (h : Covers (before ++ [c]) rest ts) :
    Covers before (c :: rest) ts := by
  generalize hfront : before ++ [c] = front at h
  cases h with
  | done trivia =>
    rw [← hfront, List.append_assoc]
    exact .done (.blank hc trivia)
  | token trivia ends lexeme longest others =>
    subst hfront
    rw [List.append_assoc before] at others ⊢
    exact .token (.blank hc trivia) ends lexeme longest others

theorem yields_blank (rest : List Char) : Yields [' '] [] rest := by
  intro before
  exact ⟨[], rfl, fun us h => h.blank (by decide)⟩

/-- Characters that the scanner takes for a symbol. -/
theorem yields_symbol {c : Char} {x rest : List Char} {s : Symbol}
    (h : symbolAt c (x ++ rest) = .ok (s, x.length))
    (hgap : opensGap (c :: (x ++ rest)) = false) : Yields (c :: x) [s] rest := by
  intro before
  obtain ⟨y, rest', hsplit, hlength, hlexeme⟩ := lexeme_of_symbolAt h
  obtain ⟨rfl, rfl⟩ := List.append_inj hsplit hlength
  refine ⟨[⟨s, place before⟩], rfl, fun us hus => ?_⟩
  have hcovers : Covers before ([] ++ (c :: x ++ rest)) (⟨s, place (before ++ [])⟩ :: us) := by
    refine .token .nil hgap hlexeme (length_le_of_symbolAt h) ?_
    rwa [List.append_nil]
  rwa [List.append_nil] at hcovers

theorem takeWhile_append_of_stop {p : Char → Bool} {cs rest : List Char} (hcs : cs.all p = true)
    (hrest : ∀ c ∈ rest.head?, p c = false) : (cs ++ rest).takeWhile p = cs := by
  rw [List.takeWhile_append_of_pos (List.all_eq_true.1 hcs)]
  cases rest with
  | nil => exact List.append_nil cs
  | cons c rest =>
    rw [List.takeWhile_cons_of_neg (by rw [hrest c rfl]; exact Bool.false_ne_true), List.append_nil]

theorem opensGap_eq_false {c : Char} {cs : List Char} (hslash : c ≠ '/')
    (hblank : isBlank c = false) (hmark : c ≠ '#') : opensGap (c :: cs) = false := by
  unfold opensGap
  split
  · next heq => exact absurd (List.cons.inj heq).1 hslash
  · next heq => exact absurd (List.cons.inj heq).1 hslash
  · next heq =>
    obtain ⟨rfl, -⟩ := List.cons.inj heq
    rw [hblank]
    simpa using hmark
  · rfl

/-- No character of a name is blank. -/
theorem isBlank_of_continuesName {c : Char} (h : continuesName c = true) : isBlank c = false := by
  have hrange : '0'.val ≤ c.val ∧ c.val ≤ 'z'.val := by
    rcases (Bool.or_eq_true c.isAlphanum (c == '_')).mp h with h | h
    · rcases (Bool.or_eq_true c.isAlpha c.isDigit).mp h with h | h
      · rcases (Bool.or_eq_true c.isUpper c.isLower).mp h with h | h
        · obtain ⟨hA, hZ⟩ := of_decide_eq_true h
          exact ⟨UInt32.le_trans (by decide) hA, UInt32.le_trans hZ (by decide)⟩
        · obtain ⟨ha, hz⟩ := Bool.and_eq_true_iff.1 h
          exact ⟨UInt32.le_trans (by decide) (of_decide_eq_true ha), of_decide_eq_true hz⟩
      · obtain ⟨hzero, hnine⟩ : '0'.val ≤ c.val ∧ c.val ≤ '9'.val := by
          simpa [Char.isDigit] using h
        exact ⟨hzero, UInt32.le_trans hnine (by decide)⟩
    · rw [eq_of_beq h]
      decide
  have hlow : 0x30 ≤ c.toNat := UInt32.le_iff_toNat_le.1 hrange.1
  have hhigh : c.toNat ≤ 0x7a := UInt32.le_iff_toNat_le.1 hrange.2
  refine List.any_eq_false.2 fun r hr hin => ?_
  obtain ⟨hfirst, hlast⟩ := Bool.and_eq_true_iff.1 hin
  have hfirst := of_decide_eq_true hfirst
  have hlast := of_decide_eq_true hlast
  have hall : blankRanges.all (fun r => r.2 < 0x30 || 0x7a < r.1) = true := by decide
  have hr := List.all_eq_true.1 hall r hr
  simp only [Bool.or_eq_true, decide_eq_true_eq] at hr
  omega

theorem yields_name {n : String} {rest : List Char} (h : (Symbol.name n).Lexed)
    (hrest : ∀ c ∈ rest.head?, continuesName c = false) : Yields n.toList [.name n] rest := by
  obtain ⟨x, hx⟩ := h.resolve_left (by simp)
  cases hx with
  | name hword hfree =>
    cases hword with
    | @mk c cs first others =>
      rw [String.toList_ofList]
      refine yields_symbol ?_ (opensGap_eq_false ?_ ?_ ?_)
      · rw [symbolAt_word first, takeWhile_append_of_stop others hrest, word_eq_name hfree]
      · rintro rfl
        exact absurd first (by decide)
      · exact isBlank_of_continuesName (continuesName_of_startsName first)
      · rintro rfl
        exact absurd first (by decide)

theorem numberTail_append {d : Char} {ds rest : List Char} (h : Numeral (d :: ds))
    (hrest : ∀ c ∈ rest.head?, c.isDigit = false ∧ c ≠ '.') :
    numberTail (ds ++ rest) = ds.length := by
  have hdigit : ∀ c ∈ rest.head?, c.isDigit = false := fun c hc => (hrest c hc).1
  rw [numberTail]
  cases h with
  | whole _ others =>
    rw [takeWhile_append_of_stop others hdigit]
    dsimp only
    rw [List.drop_left]
    split
    · next fs => exact absurd rfl (hrest '.' rfl).2
    · rfl
  | @decimal _ es fs _ others nonempty fraction =>
    have hwhole : (es ++ '.' :: fs ++ rest).takeWhile Char.isDigit = es := by
      rw [List.append_assoc, List.cons_append]
      refine takeWhile_append_of_stop others fun c hc => ?_
      cases hc
      decide
    rw [List.append_eq, hwhole]
    dsimp only
    rw [List.append_assoc, List.drop_left, List.cons_append]
    show (if ((fs ++ rest).takeWhile Char.isDigit).length = 0 then _ else _) = _
    rw [takeWhile_append_of_stop fraction hdigit, if_neg, List.length_append, List.length_cons]
    · omega
    · exact fun hzero => nonempty (List.length_eq_zero_iff.1 hzero)

theorem yields_number {text : String} {rest : List Char} (h : Numeral text.toList)
    (hrest : ∀ c ∈ rest.head?, c.isDigit = false ∧ c ≠ '.') :
    Yields text.toList [.number text] rest := by
  obtain ⟨d, ds, hds, hd⟩ := h.exists_digit
  rw [hds] at h ⊢
  have htext : String.ofList (d :: ds) = text := by rw [← hds, String.ofList_toList]
  refine yields_symbol ?_ (opensGap_eq_false ?_ ?_ ?_)
  · rw [symbolAt_number hd, numberTail_append h hrest, List.take_left, htext]
  · rintro rfl
    exact absurd hd (by decide)
  · exact isBlank_of_continuesName (continuesName_of_isDigit hd)
  · rintro rfl
    exact absurd hd (by decide)

theorem yields_punct (mark : Punct) (rest : List Char) :
    Yields [mark.char] [.punct mark] rest := by
  refine yields_symbol (x := []) (symbolAt_punct mark rest) ?_
  cases mark <;> exact opensGap_eq_false (by decide) (by decide) (by decide)

/-! ## Operators -/

theorem yields_operator {op : String} {c : Char} {x rest : List Char} (h : op ∈ operators)
    (hx : op.toList = c :: x) (hfound : operatorAt (c :: (x ++ rest)) = some op)
    (hgap : opensGap (c :: (x ++ rest)) = false) : Yields op.toList [.operator op] rest := by
  have hlength : op.length - 1 = x.length := by
    rw [← String.length_toList, hx]
    rfl
  rw [hx]
  refine yields_symbol ?_ hgap
  rw [symbolAt_operator h hx hfound, hlength]

/-- A binary operator before a blank. -/
theorem yields_binary (op : BinaryOp) (rest : List Char) :
    Yields op.spelling.toList [.operator op.spelling] (' ' :: rest) := by
  cases op <;> exact yields_operator (by decide) rfl rfl rfl

theorem yields_doubleMinus (rest : List Char) : Yields ['-', '-'] [.operator "--"] rest :=
  @yields_operator "--" '-' ['-'] rest (by decide) rfl rfl rfl

/-- An operator of one character is found where no longer one goes on with the next character. -/
theorem operatorAt_single {op : String} {a c : Char} {cs : List Char} (h : op ∈ operators)
    (hop : op.toList = [a]) (hnext : ∀ op' ∈ operators, ¬ [a, c] <+: op'.toList) :
    operatorAt (a :: c :: cs) = some op := by
  have hfront : op.toList <+: a :: c :: cs := by
    rw [hop]
    exact List.prefix_append [a] (c :: cs)
  obtain ⟨op', hfound, hfront', -⟩ := operatorAt_longest h hfront
  have hmem : op' ∈ operators := List.mem_of_find?_eq_some hfound
  obtain ⟨x, hx, hcs⟩ := exists_operator_eq_cons hmem hfront'
  cases x with
  | nil => rw [hfound, String.toList_inj.1 (hx.trans hop.symm)]
  | cons b x =>
    obtain ⟨rfl, -⟩ := List.cons_prefix_cons.1 hcs
    refine absurd ?_ (hnext op' hmem)
    rw [hx]
    exact List.prefix_append [a, b] x

/-- If the operators that begin with `a` all go on with other characters than `c`, none begins with
both. -/
theorem not_prefix_operator {a c : Char} {p : Char → Bool}
    (hall : operators.all (fun op =>
      op.toList.head? != some a || (op.toList.drop 1).head?.all p) = true)
    (hc : p c = false) : ∀ op ∈ operators, ¬ [a, c] <+: op.toList := by
  rintro op hop ⟨rest, hrest⟩
  have hfront := List.all_eq_true.1 hall op hop
  rw [← hrest] at hfront
  simp [hc] at hfront

/-- A unary operator before an operand. -/
theorem yields_unary {op : UnaryOp} {c : Char} (hequals : c ≠ '=') (hminus : op = .neg → c ≠ '-')
    (cs : List Char) : Yields op.spelling.toList [.operator op.spelling] (c :: cs) := by
  have hmem : op.spelling ∈ operators := by cases op <;> decide
  have hfound {a : Char} (hop : op.spelling.toList = [a])
      (hnext : ∀ op' ∈ operators, ¬ [a, c] <+: op'.toList)
      (hgap : opensGap (a :: c :: cs) = false) :
      Yields op.spelling.toList [.operator op.spelling] (c :: cs) :=
    yields_operator hmem hop (operatorAt_single hmem hop hnext) hgap
  cases op with
  | neg =>
    refine hfound rfl (not_prefix_operator (p := fun c => c == '-' || c == '=') ?_ ?_) rfl
    · decide
    · simp [hequals, hminus rfl]
  | not =>
    refine hfound rfl (not_prefix_operator (p := fun c => c == '=') ?_ ?_) rfl
    · decide
    · simp [hequals]
  | bitNot =>
    refine hfound rfl (not_prefix_operator (p := fun _ => false) ?_ rfl) rfl
    decide

end Scan

/-! ## Texts of expressions -/

namespace Expr

open Scan

/-- The names of an expression are those that a text can have, its numbers are numerals, and its
calls have no numbers yet. -/
inductive Legible : Expr → Prop
  | number {text : String} (h : Numeral text.toList) : Legible (.number text)
  | name {n : String} (h : (Symbol.name n).Lexed) : Legible (.name n)
  | element {base text : String} {index : Expr} (hbase : (Symbol.name base).Lexed)
      (hindex : Legible index) : Legible (.element base index text)
  | call {callee : String} {args : List Expr} {p : Position} (hcallee : (Symbol.name callee).Lexed)
      (hargs : ∀ arg ∈ args, Legible arg) : Legible (.call callee args none p)
  | unary {op : UnaryOp} {operand : Expr} (h : Legible operand) : Legible (.unary op operand)
  | binary {op : BinaryOp} {left right : Expr} (hleft : Legible left) (hright : Legible right) :
      Legible (.binary op left right)

section Texts

variable {base callee text : String} {index operand left right : Expr} {args : List Expr}

theorem toList_text_element :
    (element base index text).text.toList =
      base.toList ++ ('[' :: (index.text.toList ++ [']'])) := by
  rw [Expr.text]
  simp only [String.toList_append, List.append_assoc]
  rfl

theorem toList_text_call {p : Position} :
    (call callee args none p).text.toList =
      callee.toList ++ ('(' :: ((commaSeparated (texts args)).toList ++ [')'])) := by
  rw [Expr.text]
  simp only [String.toList_append, List.append_assoc]
  rfl

theorem toList_text_unary {op : UnaryOp} :
    (unary op operand).text.toList = op.spelling.toList ++ operand.text.toList := by
  rw [Expr.text, String.toList_append]

theorem toList_text_binary {op : BinaryOp} :
    (binary op left right).text.toList = '(' :: (left.text.toList ++
      (' ' :: (op.spelling.toList ++ (' ' :: (right.text.toList ++ [')']))))) := by
  rw [Expr.text]
  simp only [String.toList_append, List.append_assoc]
  rfl

end Texts

theorem exists_cons_of_lexed {n : String} (h : (Symbol.name n).Lexed) :
    ∃ c cs, n.toList = c :: cs ∧ c ≠ '=' ∧ c ≠ '-' := by
  obtain ⟨c, cs, hn, first⟩ := Word.exists_letter h.spelled
  refine ⟨c, cs, hn, ?_, ?_⟩ <;> rintro rfl <;> exact absurd first (by decide)

/-- The text of an expression begins with a minus sign only if the expression does. -/
theorem Legible.first {e : Expr} (h : e.Legible) :
    ∃ c cs, e.text.toList = c :: cs ∧ c ≠ '=' ∧ (e.isNegation = false → c ≠ '-') := by
  cases h with
  | number h =>
    obtain ⟨d, ds, hds, hd⟩ := h.exists_digit
    refine ⟨d, ds, hds, ?_, fun _ => ?_⟩ <;> rintro rfl <;> exact absurd hd (by decide)
  | name h =>
    obtain ⟨c, cs, hcs, hequals, hminus⟩ := exists_cons_of_lexed h
    exact ⟨c, cs, hcs, hequals, fun _ => hminus⟩
  | element hbase _ =>
    obtain ⟨c, cs, hcs, hequals, hminus⟩ := exists_cons_of_lexed hbase
    rw [toList_text_element, hcs]
    exact ⟨c, _, rfl, hequals, fun _ => hminus⟩
  | call hcallee _ =>
    obtain ⟨c, cs, hcs, hequals, hminus⟩ := exists_cons_of_lexed hcallee
    rw [toList_text_call, hcs]
    exact ⟨c, _, rfl, hequals, fun _ => hminus⟩
  | @unary op operand _ =>
    rw [toList_text_unary]
    cases op with
    | neg => exact ⟨'-', _, rfl, by decide, fun h => by cases h⟩
    | not => exact ⟨'!', _, rfl, by decide, fun _ => by decide⟩
    | bitNot => exact ⟨'~', _, rfl, by decide, fun _ => by decide⟩
  | binary =>
    rw [toList_text_binary]
    exact ⟨'(', _, rfl, by decide, fun _ => by decide⟩

/-- What may follow an expression in a text. -/
def EndsTerm (rest : List Char) : Prop :=
  ∀ c ∈ rest.head?, c ∈ [' ', ')', ']', ',']

theorem EndsTerm.name {rest : List Char} (h : EndsTerm rest) :
    ∀ c ∈ rest.head?, continuesName c = false := by
  have hall : [' ', ')', ']', ','].all (fun c => !continuesName c) = true := by decide
  intro c hc
  simpa using List.all_eq_true.1 hall c (h c hc)

theorem EndsTerm.number {rest : List Char} (h : EndsTerm rest) :
    ∀ c ∈ rest.head?, c.isDigit = false ∧ c ≠ '.' := by
  have hall : [' ', ')', ']', ','].all (fun c => !c.isDigit && c != '.') = true := by decide
  intro c hc
  simpa using List.all_eq_true.1 hall c (h c hc)

theorem endsTerm_cons {c : Char} {cs : List Char} (h : c ∈ [' ', ')', ']', ',']) :
    EndsTerm (c :: cs) := by
  rintro _ ⟨⟩
  exact h

theorem Legible.yields_unary {op : UnaryOp} {e : Expr} {rest : List Char} (h : e.Legible)
    (hop : op = .neg → e.isNegation = false) (hy : Yields e.text.toList e.printed rest) :
    Yields (Expr.unary op e).text.toList (Expr.unary op e).printed rest := by
  obtain ⟨c, cs, hcs, hequals, hminus⟩ := h.first
  have hsign : Yields op.spelling.toList [.operator op.spelling] (e.text.toList ++ rest) := by
    rw [hcs]
    exact Scan.yields_unary hequals (fun hneg => hminus (hop hneg)) _
  rw [toList_text_unary, printed_unary hop]
  exact hsign.append hy

theorem yields_args {args : List Expr} (h : ∀ arg ∈ args, ∀ rest, EndsTerm rest →
      Yields arg.text.toList arg.printed rest) (rest : List Char) :
    Yields (commaSeparated (texts args)).toList (printedList args) (')' :: rest) := by
  induction args with
  | nil => exact yields_nil _
  | cons e es ih =>
    obtain ⟨he, hes⟩ := List.forall_mem_cons.1 h
    cases es with
    | nil =>
      have htext : commaSeparated (texts [e]) = e.text := String.intercalate_singleton
      rw [htext]
      exact he _ (endsTerm_cons (by decide))
    | cons e' es =>
      have htext : (commaSeparated (texts (e :: e' :: es))).toList = e.text.toList ++
          ([','] ++ ([' '] ++ (commaSeparated (texts (e' :: es))).toList)) := by
        rw [texts, texts, commaSeparated, String.intercalate_cons_cons]
        simp only [String.toList_append, List.append_assoc]
        rfl
      have hcomma : Yields ([','] ++ ([' '] ++ (commaSeparated (texts (e' :: es))).toList))
          ([.punct .comma] ++ ([] ++ printedList (e' :: es))) (')' :: rest) :=
        (yields_punct .comma _).append ((yields_blank _).append (ih hes))
      rw [htext]
      exact (he _ (endsTerm_cons (by decide))).append hcomma

/-- **The text of an expression is scanned into its printed symbols**, and so is the text with a
minus sign before it. -/
theorem Legible.yields {e : Expr} (h : e.Legible) : ∀ rest, EndsTerm rest →
    Yields e.text.toList e.printed rest ∧
      Yields (Expr.unary .neg e).text.toList (Expr.unary .neg e).printed rest := by
  induction h with
  | number h =>
    intro rest hrest
    have hself := yields_number h hrest.number
    exact ⟨hself, (Legible.number h).yields_unary (fun _ => rfl) hself⟩
  | name h =>
    intro rest hrest
    have hself := yields_name h hrest.name
    exact ⟨hself, (Legible.name h).yields_unary (fun _ => rfl) hself⟩
  | @element base text index hbase hindex ih =>
    intro rest hrest
    have hself : Yields (Expr.element base index text).text.toList
        ([.name base] ++ ([.punct .openBracket] ++ (index.printed ++ [.punct .closeBracket])))
        rest := by
      rw [toList_text_element]
      refine (yields_name hbase ?_).append ((yields_punct .openBracket _).append
        ((ih _ (endsTerm_cons (by decide))).1.append (yields_punct .closeBracket _)))
      rintro _ ⟨⟩
      decide
    exact ⟨hself, (Legible.element hbase hindex).yields_unary (fun _ => rfl) hself⟩
  | @call callee args p hcallee hargs ih =>
    intro rest hrest
    have hself : Yields (Expr.call callee args none p).text.toList
        ([.name callee] ++ ([.punct .openParen] ++ (printedList args ++ [.punct .closeParen])))
        rest := by
      rw [toList_text_call]
      refine (yields_name hcallee ?_).append ((yields_punct .openParen _).append
        ((yields_args (fun arg harg rest hrest => (ih arg harg rest hrest).1) _).append
          (yields_punct .closeParen _)))
      rintro _ ⟨⟩
      decide
    exact ⟨hself, (Legible.call hcallee hargs).yields_unary (fun _ => rfl) hself⟩
  | @unary op operand h ih =>
    intro rest hrest
    obtain ⟨hoperand, hnegated⟩ := ih rest hrest
    by_cases hop : op = .neg
    · subst hop
      refine ⟨hnegated, ?_⟩
      rw [toList_text_unary, toList_text_unary, ← List.append_assoc]
      exact (yields_doubleMinus _).append hoperand
    · have hself := h.yields_unary (fun hneg => absurd hneg hop) hoperand
      refine ⟨hself, (Legible.unary h).yields_unary (fun _ => Bool.eq_false_iff.2 ?_) hself⟩
      intro hneg
      obtain ⟨e, heq⟩ := isNegation_iff.1 hneg
      exact hop (Expr.unary.inj heq).1
  | @binary op left right hleft hright ihleft ihright =>
    intro rest hrest
    have hright' := (ihright (')' :: rest) (endsTerm_cons (by decide))).1
    have hself : Yields (Expr.binary op left right).text.toList
        ([.punct .openParen] ++ (left.printed ++ ([] ++ ([.operator op.spelling] ++ ([] ++
          (right.printed ++ [.punct .closeParen])))))) rest := by
      rw [toList_text_binary]
      exact (yields_punct .openParen _).append ((ihleft _ (endsTerm_cons (by decide))).1.append
        ((yields_blank _).append ((yields_binary op _).append ((yields_blank _).append
          (hright'.append (yields_punct .closeParen _))))))
    exact ⟨hself, (Legible.binary hleft hright).yields_unary (fun _ => rfl) hself⟩

/-- The tokens of the text of an expression. -/
theorem Legible.scan_text {e : Expr} (h : e.Legible) :
    ∃ ts p, scan e.text = .ok (ts ++ [⟨.eof, p⟩]) ∧ ts.map Token.symbol = e.printed := by
  have hend : EndsTerm [] := by
    rintro _ ⟨⟩
  obtain ⟨ts, hts, hcovers⟩ := (h.yields [] hend).1 []
  have hall := Scan.tokens_of_covers (hcovers _ (.done .nil))
  rw [List.append_nil] at hall
  exact ⟨ts, _, hall, hts⟩

end Expr

end ClockedC
