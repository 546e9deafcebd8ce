import ClockedC.Process.Variable
import ClockedC.Proofs.ExprLayout

/-!
# Words in a text

A line of a design consists of words with blanks, marks and operators between them. A point belongs
to the word it stands in, because `work.f` is one name.

* `textWords` lists the words of a text, and `Mentions` says that a word is among them.
* `mentions_append`: a text is cut in two where a word cannot go on.
* `Layout.mentions_text`: the words of a layout are its names, functions, numbers and operators.
* `Expr.mentions_output_vhdl`: the text of an expression mentions the output if and only if a
  variable or array of that name is shown.
-/

namespace ClockedC

open Scan (Word Numeral)
open Vhdl (Operator Layout operatorWord?)

/-! ## Words -/

/-- Whether a character can be part of a word. -/
def isWordChar (c : Char) : Bool :=
  Scan.continuesName c || c == '.'

/-- The longest stretches of characters that can be part of a word. -/
def charWords (cs : List Char) : List (List Char) :=
  (cs.splitOnP fun c => !isWordChar c).filter fun w => !w.isEmpty

/-- The words of a text. -/
def textWords (text : String) : List String :=
  (charWords text.toList).map String.ofList

/-- A text has a word. -/
def Mentions (word text : String) : Prop :=
  word ∈ textWords text

instance (word text : String) : Decidable (Mentions word text) :=
  inferInstanceAs (Decidable (word ∈ textWords text))

theorem charWords_nil : charWords [] = [] := by
  rw [charWords, List.splitOnP_nil]
  rfl

/-- Words end at each character that cannot be part of one. -/
theorem charWords_append_cons {c : Char} (hc : isWordChar c = false) (cs ds : List Char) :
    charWords (cs ++ c :: ds) = charWords cs ++ charWords ds := by
  have hsep : (!isWordChar c) = true := by rw [hc]; rfl
  rw [charWords, List.splitOnP_append_cons cs ds hsep, List.filter_append]
  rfl

theorem charWords_cons {c : Char} (hc : isWordChar c = false) (cs : List Char) :
    charWords (c :: cs) = charWords cs := by
  have h := charWords_append_cons hc [] cs
  rwa [charWords_nil, List.nil_append, List.nil_append] at h

theorem charWords_of_all {cs : List Char} (hne : cs ≠ []) (h : cs.all isWordChar = true) :
    charWords cs = [cs] := by
  have hsplit : ∀ c ∈ cs, (!isWordChar c) = false := by
    intro c hc
    rw [List.all_eq_true.1 h c hc]
    rfl
  rw [charWords, List.splitOnP_eq_singleton hsplit, List.filter_cons_of_pos]
  · rfl
  · cases cs with
    | nil => exact absurd rfl hne
    | cons => rfl

theorem textWords_of_all {text : String} (hne : text ≠ "")
    (h : text.toList.all isWordChar = true) : textWords text = [text] := by
  have hlist : text.toList ≠ [] := fun hnil => hne (String.toList_inj.1 hnil)
  rw [textWords, charWords_of_all hlist h, List.map_singleton, String.ofList_toList]

theorem mem_of_mem_splitOnP {p : Char → Bool} {cs w : List Char} (h : w ∈ cs.splitOnP p) :
    ∀ c ∈ w, c ∈ cs := by
  induction cs generalizing w with
  | nil =>
    rw [List.splitOnP_nil, List.mem_singleton] at h
    rw [h]
    exact fun c hc => hc
  | cons d cs ih =>
    obtain ⟨first, others, hsplit⟩ := List.exists_cons_of_ne_nil (List.splitOnP_ne_nil p cs)
    have hfirst : ∀ c ∈ first, c ∈ cs := ih (by rw [hsplit]; exact List.mem_cons_self)
    have hothers : ∀ w ∈ others, ∀ c ∈ w, c ∈ cs := fun w hw =>
      ih (by rw [hsplit]; exact List.mem_cons_of_mem _ hw)
    rw [List.splitOnP_cons_eq_if_modifyHead, hsplit] at h
    split at h
    · rcases List.mem_cons.1 h with rfl | hw
      · exact List.forall_mem_nil _
      · rw [← hsplit] at hw
        exact fun c hc => List.mem_cons_of_mem _ (ih hw c hc)
    · rw [List.modifyHead_cons] at h
      rcases List.mem_cons.1 h with rfl | hw
      · exact List.forall_mem_cons.2
          ⟨List.mem_cons_self, fun c hc => List.mem_cons_of_mem _ (hfirst c hc)⟩
      · exact fun c hc => List.mem_cons_of_mem _ (hothers w hw c hc)

/-- A text without one of the characters of a word does not have the word. -/
theorem not_mentions_of_not_mem {word text : String} {c : Char} (hword : c ∈ word.toList)
    (htext : c ∉ text.toList) : ¬ Mentions word text := by
  intro h
  obtain ⟨w, hw, rfl⟩ := List.mem_map.1 h
  rw [String.toList_ofList] at hword
  exact htext (mem_of_mem_splitOnP (List.mem_filter.1 hw).1 c hword)

/-! ## Texts in parts -/

/-- A text begins with a character that cannot be part of a word. -/
def startsApart (text : String) : Bool :=
  text.toList.head?.any fun c => !isWordChar c

/-- A text ends with a character that cannot be part of a word. -/
def endsApart (text : String) : Bool :=
  text.toList.getLast?.any fun c => !isWordChar c

theorem startsApart_append {a : String} (b : String) (h : startsApart a = true) :
    startsApart (a ++ b) = true := by
  unfold startsApart at h ⊢
  rw [String.toList_append]
  cases hlist : a.toList with
  | nil =>
    rw [hlist] at h
    cases h
  | cons c cs =>
    rw [hlist] at h
    exact h

theorem endsApart_append (a : String) {b : String} (h : endsApart b = true) :
    endsApart (a ++ b) = true := by
  unfold endsApart at h ⊢
  rw [String.toList_append, List.getLast?_append]
  cases hlast : b.toList.getLast? with
  | none =>
    rw [hlast] at h
    cases h
  | some c =>
    rw [hlast] at h
    exact h

theorem textWords_append_of_startsApart (a : String) {b : String} (h : startsApart b = true) :
    textWords (a ++ b) = textWords a ++ textWords b := by
  unfold startsApart at h
  cases hb : b.toList with
  | nil =>
    rw [hb] at h
    cases h
  | cons c cs =>
    rw [hb] at h
    have hc : isWordChar c = false := by simpa using h
    rw [textWords, String.toList_append, hb, charWords_append_cons hc, List.map_append,
      ← charWords_cons hc cs, ← hb]
    rfl

theorem textWords_append_of_endsApart {a : String} (b : String) (h : endsApart a = true) :
    textWords (a ++ b) = textWords a ++ textWords b := by
  unfold endsApart at h
  cases ha : a.toList.getLast? with
  | none =>
    rw [ha] at h
    cases h
  | some c =>
    rw [ha] at h
    have hc : isWordChar c = false := by simpa using h
    obtain ⟨cs, hcs⟩ := List.getLast?_eq_some_iff.1 ha
    have hwords : charWords (cs ++ [c]) = charWords cs := by
      rw [charWords_append_cons hc, charWords_nil, List.append_nil]
    rw [textWords, String.toList_append, hcs, List.append_assoc, List.singleton_append,
      charWords_append_cons hc, List.map_append, ← hwords, ← hcs]
    rfl

theorem mentions_append {word a b : String} (h : endsApart a = true ∨ startsApart b = true) :
    Mentions word (a ++ b) ↔ Mentions word a ∨ Mentions word b := by
  have hwords : textWords (a ++ b) = textWords a ++ textWords b :=
    h.elim (textWords_append_of_endsApart b) (textWords_append_of_startsApart a)
  rw [Mentions, hwords, List.mem_append]
  rfl

/-- A text with marks on both sides of it. -/
theorem mentions_between {word before text after : String} (hbefore : endsApart before = true)
    (hafter : startsApart after = true) :
    Mentions word (before ++ text ++ after) ↔
      (Mentions word before ∨ Mentions word text) ∨ Mentions word after := by
  rw [mentions_append (.inr hafter), mentions_append (.inl hbefore)]

theorem not_mentions_between {word before text after : String} (hends : endsApart before = true)
    (hstarts : startsApart after = true) (hbefore : ¬ Mentions word before)
    (htext : ¬ Mentions word text) (hafter : ¬ Mentions word after) :
    ¬ Mentions word (before ++ text ++ after) := by
  rw [mentions_between hends hstarts]
  exact fun h => h.elim (fun h => h.elim hbefore htext) hafter

theorem not_mentions_mark {word mark : String} (h : textWords mark = []) :
    ¬ Mentions word mark := by
  rw [Mentions, h]
  exact List.not_mem_nil

theorem mentions_parenthesized {word text : String} :
    Mentions word ("(" ++ text ++ ")") ↔ Mentions word text := by
  have hopen : ¬ Mentions word "(" := not_mentions_mark (by decide)
  have hclose : ¬ Mentions word ")" := not_mentions_mark (by decide)
  rw [mentions_between (by decide) (by decide), or_iff_left hclose, or_iff_right hopen]

/-- A text behind another, with a comma between them. -/
theorem mentions_comma {word a b : String} :
    Mentions word (a ++ ", " ++ b) ↔ Mentions word a ∨ Mentions word b := by
  have hcomma : ¬ Mentions word ", " := not_mentions_mark (by decide)
  rw [mentions_append (.inl (endsApart_append a (by decide))),
    mentions_append (.inr (by decide)), or_iff_left hcomma]

/-- A text between two others, with blanks around it. -/
theorem mentions_spaced {word a op b : String} :
    Mentions word (a ++ " " ++ op ++ " " ++ b) ↔
      (Mentions word a ∨ Mentions word op) ∨ Mentions word b := by
  have hblank : ¬ Mentions word " " := not_mentions_mark (by decide)
  have hends : endsApart (a ++ " ") = true := endsApart_append a (by decide)
  rw [mentions_append (.inl (endsApart_append _ (by decide))),
    mentions_between hends (by decide), mentions_append (.inr (by decide)), or_iff_left hblank,
    or_iff_left hblank]

theorem mentions_commaSeparated {word : String} (texts : List String) :
    Mentions word (commaSeparated texts) ↔ ∃ text ∈ texts, Mentions word text := by
  induction texts with
  | nil =>
    have hnil : ¬ Mentions word (commaSeparated []) := not_mentions_mark (by decide)
    simp [hnil]
  | cons text texts ih =>
    cases texts with
    | nil => simp [commaSeparated, String.intercalate_singleton]
    | cons next texts =>
      have hsplit : commaSeparated (text :: next :: texts) =
          text ++ ", " ++ commaSeparated (next :: texts) := String.intercalate_cons_cons
      simp only [hsplit, mentions_comma, ih, List.mem_cons, exists_eq_or_imp]

/-- A line is indented by blanks, which are no part of a word. -/
theorem mentions_indented {word : String} (depth : Nat) (text : String) :
    Mentions word (indented depth text) ↔ Mentions word text := by
  have hblanks (n : Nat) (cs : List Char) :
      charWords (List.replicate n ' ' ++ cs) = charWords cs := by
    induction n with
    | zero => rfl
    | succ n ih =>
      rw [List.replicate_succ, List.cons_append, charWords_cons (by decide), ih]
  have hwords : textWords (indented depth text) = textWords text := by
    rw [textWords, indented, String.toList_append, String.toList_ofList, hblanks]
    rfl
  rw [Mentions, hwords]
  rfl

/-! ## Words and numerals -/

theorem isWordChar_of_continuesName {c : Char} (h : Scan.continuesName c = true) :
    isWordChar c = true := by
  rw [isWordChar, h]
  rfl

theorem all_isWordChar_of_word {cs : List Char} (h : Word cs) : cs.all isWordChar = true :=
  List.all_eq_true.2 fun c hc =>
    isWordChar_of_continuesName (List.all_eq_true.1 h.all_continuesName c hc)

theorem textWords_of_word {text : String} (h : Word text.toList) : textWords text = [text] := by
  refine textWords_of_all ?_ (all_isWordChar_of_word h)
  rintro rfl
  cases h

theorem mentions_of_word {word text : String} (h : Word text.toList) :
    Mentions word text ↔ word = text := by
  rw [Mentions, textWords_of_word h, List.mem_singleton]

/-- A function, or an array, with an argument. -/
theorem mentions_application {word f arg : String} (hf : Word f.toList) :
    Mentions word (f ++ "(" ++ arg ++ ")") ↔ word = f ∨ Mentions word arg := by
  have htext : f ++ "(" ++ arg ++ ")" = f ++ ("(" ++ arg ++ ")") := by
    simp only [String.append_assoc]
  have hstarts : startsApart ("(" ++ arg ++ ")") = true :=
    startsApart_append _ (startsApart_append _ (by decide))
  rw [htext, mentions_append (.inr hstarts), mentions_of_word hf, mentions_parenthesized]

theorem isDigit_or_eq_of_numeral {cs : List Char} (h : Numeral cs) :
    ∀ c ∈ cs, c.isDigit = true ∨ c = '.' := by
  have hdigits {ds : List Char} (hds : ds.all Char.isDigit = true) :
      ∀ c ∈ ds, c.isDigit = true ∨ c = '.' := fun c hc => .inl (List.all_eq_true.1 hds c hc)
  cases h with
  | whole first others => exact List.forall_mem_cons.2 ⟨.inl first, hdigits others⟩
  | decimal first others nonempty fraction =>
    refine List.forall_mem_cons.2 ⟨.inl first, List.forall_mem_append.2 ⟨hdigits others, ?_⟩⟩
    exact List.forall_mem_cons.2 ⟨.inr rfl, hdigits fraction⟩

theorem not_mentions_of_numeral {word text : String} (hword : Word word.toList)
    (h : Numeral text.toList) : ¬ Mentions word text := by
  -- A word begins with a character that no numeral has.
  have hfirst : ∃ c ∈ word.toList, c.isDigit = false ∧ c ≠ '.' := by
    generalize word.toList = cs at hword
    cases hword with
    | @mk c cs first others =>
      refine ⟨c, List.mem_cons_self, Bool.eq_false_iff.2 fun hdigit => ?_, ?_⟩
      · rw [Scan.not_startsName_of_isDigit hdigit] at first
        cases first
      · rintro rfl
        exact absurd first (by decide)
  obtain ⟨c, hc, hdigit, hpoint⟩ := hfirst
  refine not_mentions_of_not_mem hc fun hmem => ?_
  rcases isDigit_or_eq_of_numeral h c hmem with htrue | heq
  · rw [hdigit] at htrue
    cases htrue
  · exact hpoint heq

/-! ## Layouts -/

/-- A word that stands neither for an operator nor for a negation. -/
structure PlainWord (word : String) : Prop where
  isWord : Word word.toList
  plain : operatorWord? word = none

theorem not_mentions_operator {word : String} (h : PlainWord word) (op : Operator) :
    ¬ Mentions word op.text := by
  have hwords : ∀ w ∈ textWords op.text, operatorWord? w ≠ none := by
    cases op <;> decide
  exact fun hmem => hwords word hmem h.plain

namespace Vhdl.Layout

/-- A word in the text of a layout is a name or a function of it. -/
theorem mentions_text {word : String} (hword : PlainWord word) {l : Layout} (hl : l.WellSpelled) :
    Mentions word l.text ↔ word ∈ l.words := by
  induction l with
  | name n => rw [text, mentions_of_word hl, words, List.mem_singleton]
  | number t =>
    rw [text, words]
    exact iff_of_false (not_mentions_of_numeral hword.isWord hl) List.not_mem_nil
  | apply f arg ih => rw [text, words, mentions_application hl.1, ih hl.2, List.mem_cons]
  | applyTwo f first second ih₁ ih₂ =>
    have htext : (applyTwo f first second).text =
        f ++ "(" ++ (first.text ++ ", " ++ second.text) ++ ")" := by
      simp only [text, String.append_assoc]
    rw [htext, words, mentions_application hl.1, mentions_comma, ih₁ hl.2.1, ih₂ hl.2.2,
      List.mem_cons, List.mem_append]
  | parens inner ih => rw [text, words, mentions_parenthesized, ih hl]
  | negated operand ih =>
    have hminus : ¬ Mentions word "-" := not_mentions_mark (by decide)
    rw [text, words, mentions_append (.inl (by decide)), ih hl.1, or_iff_right hminus]
  | inverted operand ih =>
    have hwords : ∀ w ∈ textWords "not ", operatorWord? w ≠ none := by decide
    have hnot : ¬ Mentions word "not " := fun h => hwords word h hword.plain
    rw [text, words, mentions_append (.inl (by decide)), ih hl, or_iff_right hnot]
  | binary op left right ih₁ ih₂ =>
    rw [text, words, mentions_spaced, ih₁ hl.1, ih₂ hl.2, List.mem_append,
      or_iff_left (not_mentions_operator hword op)]

end Vhdl.Layout

/-! ## Expressions -/

theorem plainWord_outputName : PlainWord outputName :=
  ⟨.mk (by decide) (by decide), by decide⟩

theorem resultWire_ne_outputName (callee : String) (unit : Option Nat) :
    resultWire callee unit ≠ outputName := by
  intro h
  have hunderscore : '_' ∈ (resultWire callee unit).toList := by
    cases unit with
    | none =>
      rw [show resultWire callee none = callee ++ "_result" from rfl, String.toList_append]
      exact List.mem_append_right _ (by decide)
    | some n =>
      rw [show resultWire callee (some n) = "call_" ++ callee ++ "_" ++ toString n ++ "_res"
        from rfl, String.toList_append]
      exact List.mem_append_right _ (by decide)
  rw [h] at hunderscore
  exact absurd hunderscore (by decide)

namespace Expr

theorem output_mem_words_layoutCount {e : Expr} :
    outputName ∈ (e.layoutCount e.layout).words ↔ outputName ∈ e.layout.words := by
  unfold layoutCount
  cases h : e.literalValue? with
  | none => simp [Layout.words, outputName]
  | some n =>
    have hliteral : outputName ∉ e.layout.words := by
      unfold literalValue? at h
      split at h
      · simp [layout, Layout.words]
      · simp [layout, layoutUnary, layoutNegated, Layout.words, outputName]
      · cases h
    cases n <;> simp [Layout.integer, Layout.words, hliteral]

theorem output_mem_words_layoutUnary {op : UnaryOp} {e : Expr} {a : Layout} :
    outputName ∈ (layoutUnary op e a).words ↔ outputName ∈ a.words := by
  cases op with
  | bitNot => simp [layoutUnary, Layout.words, outputName]
  | not =>
    unfold layoutUnary layoutInverted
    dsimp only
    split <;> simp [Layout.words, outputName]
  | neg =>
    unfold layoutUnary layoutNegated
    dsimp only
    split <;> simp [Layout.words, outputName]

theorem output_mem_words_layoutBinary {op : BinaryOp} {left right : Expr} :
    outputName ∈ (layoutBinary op left right left.layout right.layout).words ↔
      outputName ∈ left.layout.words ∨ outputName ∈ right.layout.words := by
  have hlogical (e : Expr) :
      outputName ∈ (e.layoutLogical e.layout).words ↔ outputName ∈ e.layout.words := by
    unfold layoutLogical
    split <;> simp [Layout.words, outputName]
  have hcompared (e : Expr) :
      outputName ∈ (e.layoutCompared e.layout).words ↔ outputName ∈ e.layout.words := by
    unfold layoutCompared
    split <;> simp [Layout.words, outputName]
  have harithmetic (e : Expr) :
      outputName ∈ (e.layoutArithmetic e.layout).words ↔ outputName ∈ e.layout.words := by
    unfold layoutArithmetic
    split <;> simp [Layout.words]
  unfold layoutBinary
  cases h : op.form with
  | logical o => simp only [Layout.words, List.mem_append, hlogical]
  | comparison o => simp only [Layout.words, List.mem_append, hcompared]
  | arithmetic o => simp only [Layout.words, List.mem_append, harithmetic]
  | bitwise o => simp [Layout.words, outputName]
  | shift f =>
    have hf : outputName ≠ f := by
      cases op <;> cases h <;> decide
    simp only [Layout.words, List.mem_cons, List.mem_append, output_mem_words_layoutCount, hf,
      false_or, or_iff_right (show outputName ≠ "unsigned" by decide)]

/-- Apart from its own names, the text of an expression has no name of the output. -/
theorem output_mem_words_layout : (e : Expr) →
    (outputName ∈ e.layout.words ↔ outputName ∈ e.shownNames)
  | number _ => by simp [layout, Layout.words, shownNames]
  | name _ => by simp [layout, Layout.words, shownNames]
  | call callee _ unit _ => by
    simp [layout, Layout.words, shownNames, (resultWire_ne_outputName callee unit).symm]
  | element _ index _ => by
    rw [layout, shownNames, Layout.words, List.mem_cons, List.mem_cons,
      output_mem_words_layoutCount, output_mem_words_layout index]
  | unary _ operand => by
    rw [layout, shownNames, output_mem_words_layoutUnary, output_mem_words_layout operand]
  | binary _ left right => by
    rw [layout, shownNames, output_mem_words_layoutBinary, output_mem_words_layout left,
      output_mem_words_layout right, List.mem_append]

/-- The text of an expression mentions the output if and only if a variable or array of that name is
shown. -/
theorem mentions_output_vhdl {e : Expr} (h : e.Spelled) :
    Mentions outputName e.vhdl ↔ outputName ∈ e.shownNames := by
  rw [← text_layout, Layout.mentions_text plainWord_outputName h.wellSpelled,
    output_mem_words_layout]

end Expr

end ClockedC
