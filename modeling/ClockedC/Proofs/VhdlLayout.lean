import ClockedC.Proofs.Spelling
import ClockedC.Proofs.VhdlReader

/-!
# Layouts of VHDL expressions

A layout is an expression of VHDL together with the parentheses that are written around its parts.
It has a text, and it has the tree that the text is meant as. What the text is read as may be
another tree, where parentheses are missing.

* `Layout.read_text`: the text is read as `asRead` says, if no name is a word for an operator.
* `Layout.asRead_binary`: an operator is applied to its own operands if these bind tight enough.
* `Layout.plain_of_read_text`: a name that is a word for an operator is missing in the tree.
-/

namespace ClockedC

namespace Vhdl

open Scan (Word Numeral)

/-! ## Where words and numerals end -/

/-- The characters that stand behind a word or a numeral. -/
def delimiters : List Char :=
  [' ', '(', ')', ',']

/-- A word or numeral ends before this text. -/
def Stops (rest : List Char) : Prop :=
  ∀ c ∈ rest.head?, c ∈ delimiters

theorem stops_nil : Stops [] := by
  intro c hc
  cases hc

theorem stops_cons {c : Char} (rest : List Char) (h : c ∈ delimiters) : Stops (c :: rest) := by
  intro d hd
  cases hd
  exact h

theorem takeWhile_append_stops {p : Char → Bool} {cs rest : List Char} (hcs : cs.all p = true)
    (hrest : Stops rest) (hp : delimiters.any p = false) : (cs ++ rest).takeWhile p = cs := by
  have hnil : rest.takeWhile p = [] := by
    cases rest with
    | nil => rfl
    | cons c rest =>
      have hc : ¬ p c = true := List.any_eq_false.1 hp c (hrest c rfl)
      rw [List.takeWhile_cons, if_neg hc]
  rw [List.takeWhile_append_of_pos (List.all_eq_true.1 hcs), hnil, List.append_nil]

theorem numberTail_whole {ds rest : List Char} (hds : ds.all Char.isDigit = true)
    (hrest : Stops rest) : Scan.numberTail (ds ++ rest) = ds.length := by
  have hwhole : (ds ++ rest).takeWhile Char.isDigit = ds :=
    takeWhile_append_stops hds hrest (by decide)
  rw [Scan.numberTail, hwhole, List.drop_left]
  split
  next fs => exact absurd (hrest '.' rfl) (by decide)
  next => rfl

theorem numberTail_decimal {ds fs rest : List Char} (hds : ds.all Char.isDigit = true)
    (hne : fs ≠ []) (hfs : fs.all Char.isDigit = true) (hrest : Stops rest) :
    Scan.numberTail (ds ++ '.' :: fs ++ rest) = (ds ++ '.' :: fs).length := by
  have hpoint : ('.' :: fs ++ rest).takeWhile Char.isDigit = [] := rfl
  have hwhole : (ds ++ ('.' :: fs ++ rest)).takeWhile Char.isDigit = ds := by
    rw [List.takeWhile_append_of_pos (List.all_eq_true.1 hds), hpoint, List.append_nil]
  have hfraction : (fs ++ rest).takeWhile Char.isDigit = fs :=
    takeWhile_append_stops hfs hrest (by decide)
  have hlength : fs.length ≠ 0 := fun h => hne (List.eq_nil_of_length_eq_zero h)
  rw [List.append_assoc, Scan.numberTail, hwhole, List.drop_left]
  simp only [List.cons_append, hfraction, if_neg hlength, List.length_append, List.length_cons]
  omega

/-! ## Lexemes of texts -/

theorem Lexeme.ofWord_of_plain {word : String} (h : operatorWord? word = none) :
    ofWord word = .name word := by
  rw [ofWord, h]
  rfl

theorem lex_nil : lex [] = some [] := by
  rw [lex]

theorem lex_space (cs : List Char) : lex (' ' :: cs) = lex cs := by
  rw [lex, if_pos rfl]

/-- A lexeme that takes all of `c :: cs`. -/
theorem lex_lexeme {c : Char} {cs rest : List Char} {l : Lexeme} (hc : c ≠ ' ')
    (h : lexemeAt c (cs ++ rest) = some (l, cs.length)) :
    lex (c :: cs ++ rest) = (lex rest).map (l :: ·) := by
  rw [List.cons_append, lex, if_neg hc, h]
  simp only [List.drop_left]

theorem lex_word {cs rest : List Char} (hcs : Word cs) (hrest : Stops rest) :
    lex (cs ++ rest) = (lex rest).map (Lexeme.ofWord (String.ofList cs) :: ·) := by
  obtain @⟨c, cs, hfirst, hothers⟩ := hcs
  apply lex_lexeme
  · rintro rfl
    exact absurd hfirst (by decide)
  · have htail : (cs ++ rest).takeWhile Scan.continuesName = cs :=
      takeWhile_append_stops hothers hrest (by decide)
    simp only [lexemeAt, if_pos hfirst, htail, List.take_left]

theorem lex_number {c : Char} {cs rest : List Char} (hc : c.isDigit = true)
    (htail : Scan.numberTail (cs ++ rest) = cs.length) :
    lex (c :: cs ++ rest) = (lex rest).map (.number (String.ofList (c :: cs)) :: ·) := by
  apply lex_lexeme
  · rintro rfl
    exact absurd hc (by decide)
  · simp only [lexemeAt, Scan.not_startsName_of_isDigit hc, if_neg Bool.false_ne_true, if_pos hc,
      htail, List.take_left]

theorem lex_numeral {cs rest : List Char} (hcs : Numeral cs) (hrest : Stops rest) :
    lex (cs ++ rest) = (lex rest).map (.number (String.ofList cs) :: ·) := by
  cases hcs with
  | whole first others => exact lex_number first (numberTail_whole others hrest)
  | decimal first others nonempty fraction =>
    exact lex_number first (numberTail_decimal others nonempty fraction hrest)

theorem lex_openParen (cs : List Char) : lex ('(' :: cs) = (lex cs).map (.openParen :: ·) :=
  @lex_lexeme '(' [] cs .openParen (by decide) rfl

theorem lex_closeParen (cs : List Char) : lex (')' :: cs) = (lex cs).map (.closeParen :: ·) :=
  @lex_lexeme ')' [] cs .closeParen (by decide) rfl

theorem lex_comma (cs : List Char) : lex (',' :: cs) = (lex cs).map (.comma :: ·) :=
  @lex_lexeme ',' [] cs .comma (by decide) rfl

theorem lex_minus {c : Char} (cs : List Char) (hc : c ≠ '-') :
    lex ('-' :: c :: cs) = (lex (c :: cs)).map (.operator .sub :: ·) := by
  refine @lex_lexeme '-' [] (c :: cs) (.operator .sub) (by decide) ?_
  rw [List.nil_append, lexemeAt, if_neg (by decide), if_neg (by decide)]
  · rfl
  · intro cs' hcs
    cases hcs
    exact hc rfl

theorem lex_operatorWord {op : Operator} (rest : List Char) (hword : Word op.text.toList)
    (hop : Lexeme.ofWord op.text = .operator op) :
    lex (op.text.toList ++ ' ' :: rest) = (lex (' ' :: rest)).map (.operator op :: ·) := by
  rw [lex_word hword (stops_cons rest (by decide)), String.ofList_toList, hop]

theorem lex_operator (op : Operator) (rest : List Char) :
    lex (' ' :: (op.text.toList ++ ' ' :: rest)) = (lex rest).map (.operator op :: ·) := by
  rw [lex_space, ← lex_space rest]
  cases op with
  | and => exact lex_operatorWord rest (.mk (by decide) (by decide)) (by decide)
  | or => exact lex_operatorWord rest (.mk (by decide) (by decide)) (by decide)
  | xor => exact lex_operatorWord rest (.mk (by decide) (by decide)) (by decide)
  | mod => exact lex_operatorWord rest (.mk (by decide) (by decide)) (by decide)
  | eq => exact @lex_lexeme '=' [] _ (.operator .eq) (by decide) rfl
  | ne => exact @lex_lexeme '/' ['='] _ (.operator .ne) (by decide) rfl
  | lt => exact @lex_lexeme '<' [] _ (.operator .lt) (by decide) rfl
  | le => exact @lex_lexeme '<' ['='] _ (.operator .le) (by decide) rfl
  | gt => exact @lex_lexeme '>' [] _ (.operator .gt) (by decide) rfl
  | ge => exact @lex_lexeme '>' ['='] _ (.operator .ge) (by decide) rfl
  | add => exact @lex_lexeme '+' [] _ (.operator .add) (by decide) rfl
  | sub => exact @lex_lexeme '-' [] _ (.operator .sub) (by decide) rfl
  | mul => exact @lex_lexeme '*' [] _ (.operator .mul) (by decide) rfl
  | div => exact @lex_lexeme '/' [] _ (.operator .div) (by decide) rfl

/-! ## Layouts -/

/-- An expression with its parentheses. -/
inductive Layout where
  | name (n : String)
  | number (text : String)
  | apply (f : String) (arg : Layout)
  | applyTwo (f : String) (first second : Layout)
  | parens (inner : Layout)
  | negated (operand : Layout)
  | inverted (operand : Layout)
  | binary (op : Operator) (left right : Layout)

namespace Layout

/-- How a layout is written. -/
def text : Layout → String
  | name n => n
  | number text => text
  | apply f arg => f ++ "(" ++ arg.text ++ ")"
  | applyTwo f first second => f ++ "(" ++ first.text ++ ", " ++ second.text ++ ")"
  | parens inner => "(" ++ inner.text ++ ")"
  | negated operand => "-" ++ operand.text
  | inverted operand => "not " ++ operand.text
  | binary op left right => left.text ++ " " ++ op.text ++ " " ++ right.text

/-- What a layout is meant as: the parentheses are left out. -/
def tree : Layout → Tree
  | name n => .name n
  | number text => .literal text
  | apply f arg => .apply f [arg.tree]
  | applyTwo f first second => .apply f [first.tree, second.tree]
  | parens inner => inner.tree
  | negated operand => .signed .sub operand.tree
  | inverted operand => .inverted operand.tree
  | binary op left right => .binary op left.tree right.tree

/-- Names are words and numbers numerals, and no two minus signs meet. -/
def WellSpelled : Layout → Prop
  | name n => Word n.toList
  | number text => Numeral text.toList
  | apply f arg => Word f.toList ∧ arg.WellSpelled
  | applyTwo f first second => Word f.toList ∧ first.WellSpelled ∧ second.WellSpelled
  | parens inner => inner.WellSpelled
  | negated operand => operand.WellSpelled ∧ ∃ c cs, operand.text.toList = c :: cs ∧ c ≠ '-'
  | inverted operand => operand.WellSpelled
  | binary _ left right => left.WellSpelled ∧ right.WellSpelled

/-- The lexemes of a layout. -/
def lexemes : Layout → List Lexeme
  | name n => [Lexeme.ofWord n]
  | number text => [.number text]
  | apply f arg => Lexeme.ofWord f :: .openParen :: (arg.lexemes ++ [.closeParen])
  | applyTwo f first second =>
    Lexeme.ofWord f :: .openParen :: (first.lexemes ++ .comma :: (second.lexemes ++ [.closeParen]))
  | parens inner => .openParen :: (inner.lexemes ++ [.closeParen])
  | negated operand => .operator .sub :: operand.lexemes
  | inverted operand => .inverter :: operand.lexemes
  | binary op left right => left.lexemes ++ .operator op :: right.lexemes

theorem lex_text_append {l : Layout} (hl : l.WellSpelled) {rest : List Char} (hrest : Stops rest) :
    lex (l.text.toList ++ rest) = (lex rest).map (l.lexemes ++ ·) := by
  induction l generalizing rest with
  | name n =>
    have h := lex_word hl hrest
    rw [String.ofList_toList] at h
    exact h
  | number text =>
    have h := lex_numeral hl hrest
    rw [String.ofList_toList] at h
    exact h
  | apply f arg ih =>
    obtain ⟨hf, harg⟩ := hl
    have htext : (apply f arg).text.toList ++ rest =
        f.toList ++ '(' :: (arg.text.toList ++ ')' :: rest) := by
      simp [text, String.toList_append]
    rw [htext, lex_word hf (stops_cons _ (by decide)), lex_openParen,
      ih harg (stops_cons _ (by decide)), lex_closeParen, String.ofList_toList]
    simp [lexemes, Option.map_map, Function.comp_def]
  | applyTwo f first second ih₁ ih₂ =>
    obtain ⟨hf, hfirst, hsecond⟩ := hl
    have htext : (applyTwo f first second).text.toList ++ rest =
        f.toList ++ '(' :: (first.text.toList ++ ',' :: ' ' ::
          (second.text.toList ++ ')' :: rest)) := by
      simp [text, String.toList_append]
    rw [htext, lex_word hf (stops_cons _ (by decide)), lex_openParen,
      ih₁ hfirst (stops_cons _ (by decide)), lex_comma, lex_space,
      ih₂ hsecond (stops_cons _ (by decide)), lex_closeParen, String.ofList_toList]
    simp [lexemes, Option.map_map, Function.comp_def]
  | parens inner ih =>
    have htext : (parens inner).text.toList ++ rest =
        '(' :: (inner.text.toList ++ ')' :: rest) := by
      simp [text, String.toList_append]
    rw [htext, lex_openParen, ih hl (stops_cons _ (by decide)), lex_closeParen]
    simp [lexemes, Option.map_map, Function.comp_def]
  | negated operand ih =>
    obtain ⟨hoperand, c, cs, hcs, hc⟩ := hl
    have htext : (negated operand).text.toList ++ rest = '-' :: c :: (cs ++ rest) := by
      simp [text, String.toList_append, hcs]
    rw [htext, lex_minus _ hc, ← List.cons_append, ← hcs, ih hoperand hrest]
    simp [lexemes, Option.map_map, Function.comp_def]
  | inverted operand ih =>
    have htext : (inverted operand).text.toList ++ rest =
        "not".toList ++ ' ' :: (operand.text.toList ++ rest) := by
      simp [text, String.toList_append]
    have hnot : Word "not".toList := .mk (by decide) (by decide)
    have hlexeme : Lexeme.ofWord "not" = .inverter := by decide
    rw [htext, lex_word hnot (stops_cons _ (by decide)), lex_space, ih hl hrest,
      String.ofList_toList, hlexeme]
    simp [lexemes, Option.map_map, Function.comp_def]
  | binary op left right ih₁ ih₂ =>
    obtain ⟨hleft, hright⟩ := hl
    have htext : (binary op left right).text.toList ++ rest =
        left.text.toList ++ ' ' :: (op.text.toList ++ ' ' :: (right.text.toList ++ rest)) := by
      simp [text, String.toList_append]
    rw [htext, ih₁ hleft (stops_cons _ (by decide)), lex_operator, ih₂ hright hrest]
    simp [lexemes, Option.map_map, Function.comp_def]

theorem lex_text {l : Layout} (hl : l.WellSpelled) : lex l.text.toList = some l.lexemes := by
  have h := lex_text_append hl stops_nil
  rw [List.append_nil, lex_nil] at h
  simpa using h

/-! ## What is read -/

/-- What stands on the outermost level, once all inside is read. -/
def items : Layout → Option (List Item)
  | name n => some [.operand (.name n) true]
  | number text => some [.operand (.literal text) false]
  | apply f arg => (arg.items.bind expression).map fun t => [.operand (.apply f [t]) false]
  | applyTwo f first second =>
    (first.items.bind expression).bind fun s =>
      (second.items.bind expression).map fun t => [.operand (.apply f [s, t]) false]
  | parens inner => (inner.items.bind expression).map fun t => [.operand t false]
  | negated operand => operand.items.map (.operator .sub :: ·)
  | inverted operand => operand.items.map (.inverter :: ·)
  | binary op left right =>
    left.items.bind fun is => right.items.map fun js => is ++ .operator op :: js

/-- What a layout is read as. -/
def asRead (l : Layout) : Option Tree :=
  l.items.bind expression

/-- The names and functions of a layout. -/
def words : Layout → List String
  | name n => [n]
  | number _ => []
  | apply f arg => f :: arg.words
  | applyTwo f first second => f :: (first.words ++ second.words)
  | parens inner => inner.words
  | negated operand => operand.words
  | inverted operand => operand.words
  | binary _ left right => left.words ++ right.words

/-- No name or function is a word for an operator. -/
def Plain (l : Layout) : Prop :=
  ∀ w ∈ l.words, operatorWord? w = none

@[simp] theorem plain_name {n : String} : (name n).Plain ↔ operatorWord? n = none :=
  List.forall_mem_singleton

@[simp] theorem plain_number {text : String} : (number text).Plain := by
  intro w hw
  cases hw

@[simp] theorem plain_apply {f : String} {arg : Layout} :
    (apply f arg).Plain ↔ operatorWord? f = none ∧ arg.Plain :=
  List.forall_mem_cons

@[simp] theorem plain_applyTwo {f : String} {first second : Layout} :
    (applyTwo f first second).Plain ↔ operatorWord? f = none ∧ first.Plain ∧ second.Plain :=
  List.forall_mem_cons.trans (and_congr_right fun _ => List.forall_mem_append)

@[simp] theorem plain_parens {inner : Layout} : (parens inner).Plain ↔ inner.Plain := Iff.rfl

@[simp] theorem plain_negated {operand : Layout} : (negated operand).Plain ↔ operand.Plain :=
  Iff.rfl

@[simp] theorem plain_inverted {operand : Layout} : (inverted operand).Plain ↔ operand.Plain :=
  Iff.rfl

@[simp] theorem plain_binary {op : Operator} {left right : Layout} :
    (binary op left right).Plain ↔ left.Plain ∧ right.Plain :=
  List.forall_mem_append

end Layout

namespace Reader

/-- The last that was read is no name: a parenthesis that is opened now holds no arguments. -/
def Ready (r : Reader) : Prop :=
  ∀ f items, r.level.items ≠ .operand (.name f) true :: items

/-- Takes items on the current level. -/
def pushAll (r : Reader) (is : List Item) : Reader :=
  ⟨⟨r.level.call, is.reverse ++ r.level.items⟩, r.outer⟩

theorem pushAll_push (r : Reader) (i : Item) (is : List Item) :
    (r.push i).pushAll is = r.pushAll (i :: is) := by
  simp [pushAll, push, Level.push]

theorem pushAll_pushAll (r : Reader) (is js : List Item) :
    (r.pushAll is).pushAll js = r.pushAll (is ++ js) := by
  simp [pushAll]

theorem step_openParen {r : Reader} (h : r.Ready) :
    r.step .openParen = some ⟨⟨none, []⟩, r.level :: r.outer⟩ := by
  rw [step]
  split
  next f items hitems => exact absurd hitems (h f items)
  next => rfl

theorem ready_opened (call : Option (String × List Tree)) (outer : List Level) :
    Ready ⟨⟨call, []⟩, outer⟩ := by
  intro f items h
  cases h

theorem ready_push_operator (r : Reader) (op : Operator) : (r.push (.operator op)).Ready := by
  intro f items h
  cases h

theorem ready_push_inverter (r : Reader) : (r.push .inverter).Ready := by
  intro f items h
  cases h

/-- The lexemes stand for the items, which are taken on whatever level is the current one. -/
def StandFor (ls : List Lexeme) (is : Option (List Item)) : Prop :=
  ∀ r : Reader, r.Ready → r.run ls = is.map r.pushAll

namespace StandFor

variable {ls ms : List Lexeme} {is js : Option (List Item)}

/-- What is read inside parentheses becomes an operand. -/
theorem run_closeParen (h : StandFor ls is) (call : Option (String × List Tree)) (around : Level)
    (outer : List Level) :
    run ⟨⟨call, []⟩, around :: outer⟩ (ls ++ [.closeParen]) =
      (is.bind expression).map fun t =>
        ⟨around.push (.operand (Level.closed ⟨call, []⟩ t) false), outer⟩ := by
  rw [run_append, h _ (ready_opened call _)]
  cases is with
  | none => rfl
  | some is => simp [run, step, pushAll, Level.settled?, Level.closed]

theorem apply {f : String} (hf : operatorWord? f = none) (h : StandFor ls is) :
    StandFor (Lexeme.ofWord f :: .openParen :: (ls ++ [.closeParen]))
      ((is.bind expression).map fun t => [.operand (.apply f [t]) false]) := by
  intro r _
  rw [Lexeme.ofWord_of_plain hf]
  refine (h.run_closeParen (some (f, [])) r.level r.outer).trans ?_
  rw [Option.map_map]
  rfl

theorem applyTwo {f : String} (hf : operatorWord? f = none) (h : StandFor ls is)
    (h' : StandFor ms js) :
    StandFor (Lexeme.ofWord f :: .openParen :: (ls ++ .comma :: (ms ++ [.closeParen])))
      ((is.bind expression).bind fun s =>
        (js.bind expression).map fun t => [.operand (.apply f [s, t]) false]) := by
  intro r _
  rw [Lexeme.ofWord_of_plain hf]
  have hopened : r.run [.name f, .openParen] = some ⟨⟨some (f, []), []⟩, r.level :: r.outer⟩ := rfl
  have hcomma : ∀ s, run ⟨⟨some (f, [s]), []⟩, r.level :: r.outer⟩ (ms ++ [.closeParen]) =
      ((js.bind expression).map fun t => [.operand (.apply f [s, t]) false]).map r.pushAll := by
    intro s
    rw [h'.run_closeParen, Option.map_map]
    rfl
  refine (run_append r [.name f, .openParen] (ls ++ .comma :: (ms ++ [.closeParen]))).trans ?_
  rw [hopened, Option.bind_some, run_append, h _ (ready_opened _ _)]
  cases is with
  | none => rfl
  | some is =>
    cases hs : expression is with
    | none => simp [run, step, pushAll, Level.settled?, hs]
    | some s => simp [run, step, pushAll, Level.settled?, hs, hcomma]

theorem parens (h : StandFor ls is) :
    StandFor (.openParen :: (ls ++ [.closeParen]))
      ((is.bind expression).map fun t => [.operand t false]) := by
  intro r hr
  rw [run, step_openParen hr, Option.bind_some, h.run_closeParen, Option.map_map]
  rfl

theorem negated (h : StandFor ls is) :
    StandFor (.operator .sub :: ls) (is.map (.operator .sub :: ·)) := by
  intro r _
  refine (h _ (ready_push_operator r .sub)).trans ?_
  cases is with
  | none => rfl
  | some is => exact congrArg some (r.pushAll_push (.operator .sub) is)

theorem inverted (h : StandFor ls is) : StandFor (.inverter :: ls) (is.map (.inverter :: ·)) := by
  intro r _
  refine (h _ (ready_push_inverter r)).trans ?_
  cases is with
  | none => rfl
  | some is => exact congrArg some (r.pushAll_push .inverter is)

theorem binary {op : Operator} (h : StandFor ls is) (h' : StandFor ms js) :
    StandFor (ls ++ .operator op :: ms)
      (is.bind fun is => js.map fun js => is ++ .operator op :: js) := by
  intro r hr
  rw [run_append, h r hr]
  cases is with
  | none => rfl
  | some is =>
    refine (h' _ (ready_push_operator (r.pushAll is) op)).trans ?_
    cases js with
    | none => rfl
    | some js =>
      rw [Option.map_some, pushAll_push, pushAll_pushAll]
      rfl

end StandFor

end Reader

theorem Layout.standFor {l : Layout} (hl : l.Plain) : Reader.StandFor l.lexemes l.items := by
  induction l with
  | name n =>
    intro r _
    rw [lexemes, Lexeme.ofWord_of_plain (plain_name.1 hl)]
    rfl
  | number text =>
    intro r _
    rfl
  | apply f arg ih =>
    obtain ⟨hf, harg⟩ := plain_apply.1 hl
    exact (ih harg).apply hf
  | applyTwo f first second ih₁ ih₂ =>
    obtain ⟨hf, hfirst, hsecond⟩ := plain_applyTwo.1 hl
    exact (ih₁ hfirst).applyTwo hf (ih₂ hsecond)
  | parens inner ih => exact (ih hl).parens
  | negated operand ih => exact (ih hl).negated
  | inverted operand ih => exact (ih hl).inverted
  | binary op left right ih₁ ih₂ =>
    obtain ⟨hleft, hright⟩ := plain_binary.1 hl
    exact (ih₁ hleft).binary (ih₂ hright)

namespace Layout

/-- The text of a layout is read as `asRead` says. -/
theorem read_text {l : Layout} (hspelled : l.WellSpelled) (hplain : l.Plain) :
    read l.text = l.asRead := by
  have hrun := l.standFor hplain Reader.start (Reader.ready_opened none [])
  rw [read, lex_text hspelled, Option.bind_some, readLexemes, hrun, asRead]
  cases l.items with
  | none => rfl
  | some is =>
    have hclosed : Level.closed ⟨none, is.reverse⟩ = id := rfl
    simp [Reader.pushAll, Reader.start, Level.settled?, hclosed]

/-! ## Words for operators -/

theorem leaves_of_operatorWord {w : String} {l : Lexeme} (h : operatorWord? w = some l) :
    l.leaves = [] := by
  have htable : ∀ p ∈ operatorWords, p.2.leaves = [] := by decide
  obtain ⟨front, back, htable', -⟩ := List.lookup_eq_some_iff.1 h
  exact htable (_, l) (htable' ▸ List.mem_append_right front List.mem_cons_self)

theorem length_leaves_ofWord (w : String) :
    (Lexeme.ofWord w).leaves.length + (if (operatorWord? w).isSome then 1 else 0) = 1 := by
  rw [Lexeme.ofWord]
  cases h : operatorWord? w with
  | none => rfl
  | some l => simp [leaves_of_operatorWord h]

/-- Each word for an operator is a leaf less. -/
theorem length_leaves (l : Layout) :
    l.tree.leaves.length =
      (l.lexemes.flatMap Lexeme.leaves).length +
        l.words.countP fun w => (operatorWord? w).isSome := by
  induction l with
  | name n =>
    have hn := length_leaves_ofWord n
    simp only [tree, Tree.leaves, lexemes, words, List.flatMap_cons, List.flatMap_nil,
      List.countP_cons, List.countP_nil, List.append_nil, List.length_singleton]
    omega
  | number text => rfl
  | apply f arg ih =>
    have hf := length_leaves_ofWord f
    simp only [tree, Tree.leaves, Tree.leavesOfList, lexemes, words, List.flatMap_cons,
      List.flatMap_append, List.flatMap_nil, Lexeme.leaves_openParen, Lexeme.leaves_closeParen,
      List.countP_cons, List.append_nil, List.length_append, List.length_cons, List.nil_append, ih]
    omega
  | applyTwo f first second ih₁ ih₂ =>
    have hf := length_leaves_ofWord f
    simp only [tree, Tree.leaves, Tree.leavesOfList, lexemes, words, List.flatMap_cons,
      List.flatMap_append, List.flatMap_nil, Lexeme.leaves_openParen, Lexeme.leaves_closeParen,
      Lexeme.leaves_comma, List.countP_cons, List.countP_append, List.append_nil,
      List.length_append, List.length_cons, List.nil_append, ih₁, ih₂]
    omega
  | parens inner ih => simpa [tree, lexemes, words] using ih
  | negated operand ih => simpa [tree, Tree.leaves, lexemes, words] using ih
  | inverted operand ih => simpa [tree, Tree.leaves, lexemes, words] using ih
  | binary op left right ih₁ ih₂ =>
    simp only [tree, Tree.leaves, lexemes, words, List.flatMap_cons, List.flatMap_append,
      Lexeme.leaves_operator, List.countP_append, List.length_append, List.nil_append, ih₁, ih₂]
    omega

/-- Where a word for an operator is used as a name, that name is missing in what is read. -/
theorem plain_of_read_text {l : Layout} (hspelled : l.WellSpelled) {t : Tree}
    (h : read l.text = some t) (hlength : t.leaves.length = l.tree.leaves.length) : l.Plain := by
  rw [read, lex_text hspelled, Option.bind_some] at h
  rw [length_leaves, leaves_of_readLexemes h] at hlength
  have hcount : l.words.countP (fun w => (operatorWord? w).isSome) = 0 := by omega
  intro w hw
  simpa using List.countP_eq_zero.1 hcount w hw

/-! ## Operands -/

theorem asRead_name (n : String) : (name n).asRead = some (.name n) := rfl

theorem asRead_number (text : String) : (number text).asRead = some (.literal text) := rfl

theorem asRead_of_items_eq_map {l : Layout} {x : Option Tree} {bare : Bool}
    (h : l.items = x.map fun t => [.operand t bare]) : l.asRead = x := by
  rw [asRead, h]
  cases x with
  | none => rfl
  | some t => rfl

/-- A layout that is one operand for what stands around it. -/
def Primary (l : Layout) : Prop :=
  ∃ bare, l.items = l.asRead.map fun t => [.operand t bare]

theorem items_apply (f : String) (arg : Layout) :
    (apply f arg).items = (arg.asRead.map fun t => .apply f [t]).map fun t =>
      [.operand t false] := by
  rw [Option.map_map]
  rfl

theorem items_applyTwo (f : String) (first second : Layout) :
    (applyTwo f first second).items =
      (first.asRead.bind fun s => second.asRead.map fun t => .apply f [s, t]).map fun t =>
        [.operand t false] := by
  simp only [items, asRead, Option.map_bind, Function.comp_def, Option.map_map]

theorem items_parens (inner : Layout) :
    (parens inner).items = inner.asRead.map fun t => [.operand t false] := rfl

theorem asRead_apply (f : String) (arg : Layout) :
    (apply f arg).asRead = arg.asRead.map fun t => .apply f [t] :=
  asRead_of_items_eq_map (items_apply f arg)

theorem asRead_applyTwo (f : String) (first second : Layout) :
    (applyTwo f first second).asRead =
      first.asRead.bind fun s => second.asRead.map fun t => .apply f [s, t] :=
  asRead_of_items_eq_map (items_applyTwo f first second)

theorem asRead_parens (inner : Layout) : (parens inner).asRead = inner.asRead :=
  asRead_of_items_eq_map (items_parens inner)

theorem primary_name (n : String) : (name n).Primary := ⟨true, rfl⟩

theorem primary_number (text : String) : (number text).Primary := ⟨false, rfl⟩

theorem primary_apply (f : String) (arg : Layout) : (apply f arg).Primary :=
  ⟨false, by rw [asRead_apply, items_apply]⟩

theorem primary_applyTwo (f : String) (first second : Layout) : (applyTwo f first second).Primary :=
  ⟨false, by rw [asRead_applyTwo, items_applyTwo]⟩

theorem primary_parens (inner : Layout) : (parens inner).Primary :=
  ⟨false, by rw [asRead_parens, items_parens]⟩

/-- All operators that stand outside of parentheses bind tighter than those of the layer. -/
def Tighter (layer : Layer) (l : Layout) : Prop :=
  ∀ is, l.items = some is → Vhdl.Tighter layer is

theorem Primary.items_eq {l : Layout} (h : l.Primary) {is : List Item} (his : l.items = some is) :
    ∃ t bare, l.asRead = some t ∧ is = [.operand t bare] := by
  obtain ⟨bare, hitems⟩ := h
  rw [hitems] at his
  obtain ⟨t, ht, rfl⟩ := Option.map_eq_some_iff.1 his
  exact ⟨t, bare, ht, rfl⟩

theorem Primary.tighter {l : Layout} (h : l.Primary) (layer : Layer) : l.Tighter layer := by
  intro is his
  obtain ⟨t, bare, -, rfl⟩ := h.items_eq his
  intro op hop
  simp at hop

theorem tighter_inverted {l : Layout} {layer : Layer} (h : l.Tighter layer) :
    (inverted l).Tighter layer := by
  intro is his
  obtain ⟨js, hjs, rfl⟩ := Option.map_eq_some_iff.1 his
  intro op hop
  exact h js hjs op (by simpa using hop)

theorem tighter_negated {l : Layout} {layer : Layer} (h : l.Tighter layer)
    (hlayer : layer.rank < Layer.adding.rank) : (negated l).Tighter layer := by
  intro is his
  obtain ⟨js, hjs, rfl⟩ := Option.map_eq_some_iff.1 his
  exact Tighter.nil.binary (h js hjs) hlayer

theorem tighter_binary {op : Operator} {l r : Layout} {layer : Layer} (hl : l.Tighter layer)
    (hr : r.Tighter layer) (hlayer : layer.rank < op.layer.rank) :
    (binary op l r).Tighter layer := by
  intro is his
  obtain ⟨js, hjs, his⟩ := Option.bind_eq_some_iff.1 his
  obtain ⟨ks, hks, rfl⟩ := Option.map_eq_some_iff.1 his
  exact (hl js hjs).binary (hr ks hks) hlayer

theorem items_ne_nil {l : Layout} {is : List Item} (h : l.items = some is) : is ≠ [] := by
  have hprimary : l.Primary → is ≠ [] := by
    intro hl
    obtain ⟨t, bare, -, rfl⟩ := hl.items_eq h
    exact List.cons_ne_nil _ _
  cases l with
  | name n => exact hprimary (primary_name n)
  | number text => exact hprimary (primary_number text)
  | apply f arg => exact hprimary (primary_apply f arg)
  | applyTwo f first second => exact hprimary (primary_applyTwo f first second)
  | parens inner => exact hprimary (primary_parens inner)
  | negated operand =>
    obtain ⟨js, -, rfl⟩ := Option.map_eq_some_iff.1 h
    exact List.cons_ne_nil _ _
  | inverted operand =>
    obtain ⟨js, -, rfl⟩ := Option.map_eq_some_iff.1 h
    exact List.cons_ne_nil _ _
  | binary op left right =>
    obtain ⟨js, -, h⟩ := Option.bind_eq_some_iff.1 h
    obtain ⟨ks, -, rfl⟩ := Option.map_eq_some_iff.1 h
    exact List.append_ne_nil_of_right_ne_nil js (List.cons_ne_nil _ _)

theorem asRead_inverted {l : Layout} (h : l.Primary) :
    (inverted l).asRead = l.asRead.map .inverted := by
  obtain ⟨bare, hitems⟩ := h
  rw [asRead, items, hitems]
  cases l.asRead with
  | none => rfl
  | some t => rfl

theorem asRead_negated {l : Layout} (h : l.Tighter .adding) :
    (negated l).asRead = l.asRead.map (.signed .sub) := by
  rw [asRead, asRead, items]
  cases hitems : l.items with
  | none => rfl
  | some is => exact expression_sign rfl (h is hitems)

/-- An operator is applied to its operands as they are read, if they bind tight enough. -/
theorem asRead_binary {op : Operator} {l r : Layout} (hl : l.Tighter op.layer.onLeft)
    (hr : r.Tighter op.layer) :
    (binary op l r).asRead = l.asRead.bind fun s => r.asRead.map (.binary op s) := by
  rw [asRead, asRead, asRead, items]
  cases hleft : l.items with
  | none => rfl
  | some is =>
    cases hright : r.items with
    | none => exact (Option.bind_fun_none _).symm
    | some js => exact expression_binary (items_ne_nil hleft) (hl is hleft) (hr js hright)

/-! ## Missing parentheses

The items of an operand that lacks its parentheses mix with those around it. -/

theorem items_binary_assoc (o p : Operator) (a b c : Layout) :
    (binary o (binary p a b) c).items = (binary p a (binary o b c)).items := by
  simp only [items]
  cases a.items with
  | none => rfl
  | some is =>
    cases b.items with
    | none => rfl
    | some js =>
      cases c.items with
      | none => rfl
      | some ks => exact congrArg some (List.append_assoc is (.operator p :: js) _)

theorem asRead_binary_assoc (o p : Operator) (a b c : Layout) :
    (binary o (binary p a b) c).asRead = (binary p a (binary o b c)).asRead := by
  rw [asRead, asRead, items_binary_assoc]

theorem asRead_binary_negated_left (op : Operator) (a b : Layout) :
    (binary op (negated a) b).asRead = (negated (binary op a b)).asRead := by
  have hitems : (binary op (negated a) b).items = (negated (binary op a b)).items := by
    simp only [items]
    cases a.items with
    | none => rfl
    | some is =>
      cases b.items with
      | none => rfl
      | some js => rfl
  rw [asRead, asRead, hitems]

theorem asRead_binary_negated_right {op : Operator} {a b : Layout} (ha : a.Tighter .relational)
    (hb : b.Tighter .adding) (hop : op.layer = .adding ∨ op.layer = .multiplying) :
    (binary op a (negated b)).asRead = none := by
  rw [asRead, items, items]
  cases hleft : a.items with
  | none => rfl
  | some is =>
    cases hright : b.items with
    | none => rfl
    | some js => exact expression_sign_after (ha is hleft) hop rfl (hb js hright)

/-! ## Names and literals of what is read -/

theorem leaves_items {l : Layout} {is : List Item} (h : l.items = some is) :
    is.flatMap Item.leaves = l.tree.leaves := by
  have hinner : ∀ {l : Layout} {t : Tree},
      (∀ {is}, l.items = some is → is.flatMap Item.leaves = l.tree.leaves) →
      l.items.bind expression = some t → t.leaves = l.tree.leaves := by
    intro l t ih ht
    obtain ⟨js, hjs, ht⟩ := Option.bind_eq_some_iff.1 ht
    rw [keepsLeaves_expression js t ht, ih hjs]
  induction l generalizing is with
  | name n =>
    cases h
    rfl
  | number text =>
    cases h
    rfl
  | apply f arg ih =>
    obtain ⟨t, ht, rfl⟩ := Option.map_eq_some_iff.1 h
    simp [Item.leaves, tree, Tree.leaves, Tree.leavesOfList, hinner ih ht]
  | applyTwo f first second ih₁ ih₂ =>
    obtain ⟨s, hs, h⟩ := Option.bind_eq_some_iff.1 h
    obtain ⟨t, ht, rfl⟩ := Option.map_eq_some_iff.1 h
    simp [Item.leaves, tree, Tree.leaves, Tree.leavesOfList, hinner ih₁ hs, hinner ih₂ ht]
  | parens inner ih =>
    obtain ⟨t, ht, rfl⟩ := Option.map_eq_some_iff.1 h
    simp [Item.leaves, tree, hinner ih ht]
  | negated operand ih =>
    obtain ⟨js, hjs, rfl⟩ := Option.map_eq_some_iff.1 h
    rw [List.flatMap_cons, ih hjs]
    rfl
  | inverted operand ih =>
    obtain ⟨js, hjs, rfl⟩ := Option.map_eq_some_iff.1 h
    rw [List.flatMap_cons, ih hjs]
    rfl
  | binary op left right ih₁ ih₂ =>
    obtain ⟨js, hjs, h⟩ := Option.bind_eq_some_iff.1 h
    obtain ⟨ks, hks, rfl⟩ := Option.map_eq_some_iff.1 h
    rw [List.flatMap_append, ih₁ hjs, List.flatMap_cons, ih₂ hks]
    rfl

/-- Whatever a layout is read as, its names and literals are those it is meant to have. -/
theorem leaves_asRead {l : Layout} {t : Tree} (h : l.asRead = some t) :
    t.leaves = l.tree.leaves := by
  obtain ⟨is, hitems, ht⟩ := Option.bind_eq_some_iff.1 h
  rw [keepsLeaves_expression is t ht, leaves_items hitems]

end Layout

end Vhdl

end ClockedC
