import ClockedC.Proofs.OutputPort

/-!
# Printable lines

The names of a source are words and its numbers are numerals, so the lines of a process consist of
printable characters. In particular no line has a line break in it, and the lines can be read back
from the text that they make up.

* `Expr.printable_vhdl`: the text of an expression is printable.
* `Sequential.printable_linesOfList`: so are the lines of statements.
* `Function.printable_process`: and all lines of a process.
* `textLines_unlines`: the lines of a text of printable lines are these lines.
-/

namespace ClockedC

open Scan (Word Numeral)
open Vhdl (Operator Layout)

/-! ## Characters -/

/-- Whether a character is one of the printable characters of ASCII. -/
def isPrintable (c : Char) : Bool :=
  ' ' ≤ c && c ≤ '~'

/-- All characters of a text are printable. -/
def Printable (text : String) : Prop :=
  text.toList.all isPrintable = true

instance (text : String) : Decidable (Printable text) :=
  inferInstanceAs (Decidable (text.toList.all isPrintable = true))

theorem printable_append {a b : String} : Printable (a ++ b) ↔ Printable a ∧ Printable b := by
  rw [Printable, String.toList_append, List.all_append, Bool.and_eq_true]
  rfl

/-- What lies between two printable characters is printable. -/
theorem isPrintable_of_between {a b c : Char} (ha : isPrintable a = true)
    (hb : isPrintable b = true) (hac : a ≤ c) (hcb : c ≤ b) : isPrintable c = true := by
  simp only [isPrintable, Bool.and_eq_true, decide_eq_true_eq] at ha hb ⊢
  exact ⟨Char.le_trans ha.1 hac, Char.le_trans hcb hb.2⟩

theorem isPrintable_of_isDigit {c : Char} (h : c.isDigit = true) : isPrintable c = true := by
  obtain ⟨hzero, hnine⟩ := Bool.and_eq_true_iff.1 h
  exact isPrintable_of_between (a := '0') (b := '9') (by decide) (by decide)
    (of_decide_eq_true hzero) (of_decide_eq_true hnine)

theorem isPrintable_of_continuesName {c : Char} (h : Scan.continuesName c = true) :
    isPrintable c = true := by
  rcases Bool.or_eq_true_iff.1 h with halphanum | hunderscore
  · rcases Bool.or_eq_true_iff.1 halphanum with halpha | hdigit
    · rcases Bool.or_eq_true_iff.1 halpha with hupper | hlower
      · obtain ⟨hfirst, hlast⟩ := of_decide_eq_true hupper
        exact isPrintable_of_between (a := 'A') (b := 'Z') (by decide) (by decide) hfirst hlast
      · obtain ⟨hfirst, hlast⟩ := Bool.and_eq_true_iff.1 hlower
        exact isPrintable_of_between (a := 'a') (b := 'z') (by decide) (by decide)
          (of_decide_eq_true hfirst) (of_decide_eq_true hlast)
    · exact isPrintable_of_isDigit hdigit
  · rw [eq_of_beq hunderscore]
    decide

theorem printable_of_word {text : String} (h : Word text.toList) : Printable text :=
  List.all_eq_true.2 fun c hc =>
    isPrintable_of_continuesName (List.all_eq_true.1 h.all_continuesName c hc)

theorem printable_of_numeral {text : String} (h : Numeral text.toList) : Printable text := by
  refine List.all_eq_true.2 fun c hc => ?_
  rcases isDigit_or_eq_of_numeral h c hc with hdigit | rfl
  · exact isPrintable_of_isDigit hdigit
  · decide

theorem printable_vector (type : ScalarType) : Printable type.vector := by
  cases type <;> decide

/-! ## Expressions -/

theorem Vhdl.Layout.printable_text {l : Layout} (hl : l.WellSpelled) : Printable l.text := by
  induction l with
  | name n => exact printable_of_word hl
  | number text => exact printable_of_numeral hl
  | apply f arg ih =>
    simp only [text, printable_append]
    exact ⟨⟨⟨printable_of_word hl.1, by decide⟩, ih hl.2⟩, by decide⟩
  | applyTwo f first second ih₁ ih₂ =>
    simp only [text, printable_append]
    exact ⟨⟨⟨⟨⟨printable_of_word hl.1, by decide⟩, ih₁ hl.2.1⟩, by decide⟩, ih₂ hl.2.2⟩, by decide⟩
  | parens inner ih =>
    simp only [text, printable_append]
    exact ⟨⟨by decide, ih hl⟩, by decide⟩
  | negated operand ih =>
    rw [text, printable_append]
    exact ⟨by decide, ih hl.1⟩
  | inverted operand ih =>
    rw [text, printable_append]
    exact ⟨by decide, ih hl⟩
  | binary op left right ih₁ ih₂ =>
    have hop : Printable op.text := by cases op <;> decide
    simp only [text, printable_append]
    exact ⟨⟨⟨⟨ih₁ hl.1, by decide⟩, hop⟩, by decide⟩, ih₂ hl.2⟩

namespace Expr

theorem printable_vhdl {e : Expr} (h : e.Spelled) : Printable e.vhdl := by
  rw [← e.text_layout]
  exact Layout.printable_text h.wellSpelled

theorem printable_vhdlCondition {e : Expr} (h : e.Spelled) : Printable e.vhdlCondition := by
  unfold vhdlCondition
  split
  · exact printable_vhdl h
  · split
    · split <;> decide
    · show Printable ("unsigned(" ++ e.vhdl ++ ") /= 0")
      simp only [printable_append]
      exact ⟨⟨by decide, printable_vhdl h⟩, by decide⟩

end Expr

/-! ## Lines -/

/-- All lines of a list are printable. -/
def PrintableLines (lines : List String) : Prop :=
  ∀ line ∈ lines, Printable line

theorem printableLines_cons {line : String} {lines : List String} :
    PrintableLines (line :: lines) ↔ Printable line ∧ PrintableLines lines :=
  List.forall_mem_cons

theorem printableLines_append {lines lines' : List String} :
    PrintableLines (lines ++ lines') ↔ PrintableLines lines ∧ PrintableLines lines' :=
  List.forall_mem_append

theorem printable_indented {text : String} (h : Printable text) (depth : Nat) :
    Printable (indented depth text) := by
  rw [indented, printable_append]
  refine ⟨List.all_eq_true.2 fun c hc => ?_, h⟩
  rw [String.toList_ofList] at hc
  rw [(List.mem_replicate.1 hc).2]
  decide

theorem printable_assignment {arrow : String} (harrow : Printable arrow) {target value : Expr}
    (htarget : target.Spelled) (hvalue : value.Spelled) (depth : Nat) :
    Printable (indented depth (target.vhdl ++ arrow ++ value.vhdl ++ ";")) := by
  refine printable_indented ?_ depth
  simp only [printable_append]
  exact ⟨⟨⟨Expr.printable_vhdl htarget, harrow⟩, Expr.printable_vhdl hvalue⟩, by decide⟩

theorem printable_condition {before after : String} (hbefore : Printable before)
    (hafter : Printable after) {condition : Expr} (h : condition.Spelled) (depth : Nat) :
    Printable (indented depth (before ++ condition.vhdlCondition ++ after)) := by
  refine printable_indented ?_ depth
  simp only [printable_append]
  exact ⟨⟨hbefore, Expr.printable_vhdlCondition h⟩, hafter⟩

mutual

theorem Sequential.printable_lines : ∀ (s : Sequential) (depth : Nat),
    (∀ m ∈ s.moves, m.Spelled) → PrintableLines (s.lines depth)
  | .setVariable n value, depth, h => by
    obtain ⟨hn, hvalue⟩ := List.forall_mem_cons.1 (List.forall_mem_singleton.1 h)
    exact List.forall_mem_singleton.2 (printable_assignment (by decide : Printable " := ") hn
      (List.forall_mem_singleton.1 hvalue) depth)
  | .setSignal target value, depth, h => by
    obtain ⟨htarget, hvalue⟩ := List.forall_mem_cons.1 (List.forall_mem_singleton.1 h)
    have hline := printable_assignment (by decide : Printable " <= ") htarget
      (List.forall_mem_singleton.1 hvalue) depth
    rw [target.vhdl_expr] at hline
    exact List.forall_mem_singleton.2 hline
  | .setResult signal value, depth, h => by
    obtain ⟨hsignal, hvalue⟩ := List.forall_mem_cons.1 (List.forall_mem_singleton.1 h)
    exact List.forall_mem_singleton.2 (printable_assignment (by decide : Printable " <= ") hsignal
      (List.forall_mem_singleton.1 hvalue) depth)
  | .branch condition body otherwise, depth, h => by
    obtain ⟨hcondition, hrest⟩ := List.forall_mem_cons.1 h
    obtain ⟨hbody, hotherwise⟩ := List.forall_mem_append.1 hrest
    have hfirst := printable_condition (by decide : Printable "if ")
      (by decide : Printable " then") (List.forall_mem_singleton.1 hcondition) depth
    have hlast : PrintableLines [indented depth "end if;"] :=
      List.forall_mem_singleton.2 (printable_indented (by decide) depth)
    rw [Sequential.lines]
    refine printableLines_append.2 ⟨printableLines_append.2 ⟨?_, ?_⟩, hlast⟩
    · exact printableLines_cons.2 ⟨hfirst, Sequential.printable_linesOfList body _ hbody⟩
    · exact otherwise.printable_lines depth hotherwise
  | .loop condition body, depth, h => by
    obtain ⟨hcondition, hbody⟩ := List.forall_mem_cons.1 h
    have hfirst := printable_condition (by decide : Printable "while ")
      (by decide : Printable " loop") (List.forall_mem_singleton.1 hcondition) depth
    have hlast : PrintableLines [indented depth "end loop;"] :=
      List.forall_mem_singleton.2 (printable_indented (by decide) depth)
    rw [Sequential.lines]
    exact printableLines_append.2
      ⟨printableLines_cons.2 ⟨hfirst, Sequential.printable_linesOfList body _ hbody⟩, hlast⟩
  | .exit, depth, _ => List.forall_mem_singleton.2 (printable_indented (by decide) depth)
  | .next, depth, _ => List.forall_mem_singleton.2 (printable_indented (by decide) depth)

theorem Elsewise.printable_lines : ∀ (e : Elsewise) (depth : Nat), (∀ m ∈ e.moves, m.Spelled) →
    PrintableLines (e.lines depth)
  | .none, _, _ => List.forall_mem_nil _
  | .body body, depth, h =>
    printableLines_cons.2
      ⟨printable_indented (by decide) depth, Sequential.printable_linesOfList body _ h⟩
  | .branch condition body otherwise, depth, h => by
    obtain ⟨hcondition, hrest⟩ := List.forall_mem_cons.1 h
    obtain ⟨hbody, hotherwise⟩ := List.forall_mem_append.1 hrest
    have hfirst := printable_condition (by decide : Printable "elsif ")
      (by decide : Printable " then") (List.forall_mem_singleton.1 hcondition) depth
    rw [Elsewise.lines]
    exact printableLines_append.2
      ⟨printableLines_cons.2 ⟨hfirst, Sequential.printable_linesOfList body _ hbody⟩,
        otherwise.printable_lines depth hotherwise⟩

/-- The lines of statements are printable. -/
theorem Sequential.printable_linesOfList : ∀ (ss : List Sequential) (depth : Nat),
    (∀ m ∈ Sequential.movesOfList ss, m.Spelled) →
    PrintableLines (Sequential.linesOfList depth ss)
  | [], _, _ => List.forall_mem_nil _
  | s :: ss, depth, h => by
    obtain ⟨hs, hss⟩ := List.forall_mem_append.1 h
    rw [Sequential.linesOfList]
    exact printableLines_append.2
      ⟨s.printable_lines depth hs, Sequential.printable_linesOfList ss depth hss⟩

end

/-! ## Processes -/

namespace Function

variable {f : Function}

/-- What is done on each tick is spelled in words and numerals. -/
theorem spelled_clocked (h : f.WellSpelled) :
    ∀ m ∈ Sequential.movesOfList f.process.clocked, m.Spelled := by
  have hcopy {a b : String} (ha : Word a.toList) (hb : Word b.toList) :
      (Move.set (.name a) (.name b)).Spelled :=
    List.forall_mem_cons.2 ⟨ha, List.forall_mem_singleton.2 hb⟩
  rw [Process.moves_clocked]
  refine List.forall_mem_append.2 ⟨List.forall_mem_append.2 ⟨?_, spelled_process h⟩, ?_⟩
  · intro m hm
    obtain ⟨v, hv, rfl⟩ := List.mem_map.1 hm
    obtain ⟨hname, hsource⟩ := names_of_mem_locals h hv
    exact hcopy hname.1 hsource.1
  · intro m hm
    obtain ⟨v, hv, rfl⟩ := List.mem_map.1 hm
    obtain ⟨hname, hsource⟩ :=
      names_of_mem_locals h (List.mem_reverse.1 (List.mem_filter.1 hv).1)
    exact hcopy hsource.1 hname.1

theorem printable_process (h : f.WellSpelled) : PrintableLines f.process.lines := by
  have hvariables : PrintableLines (f.process.locals.map fun v =>
      s!"    variable {v.name} : {v.type.vector};") := by
    intro line hline
    obtain ⟨v, hv, rfl⟩ := List.mem_map.1 hline
    show Printable ("    variable " ++ v.name ++ " : " ++ v.type.vector ++ ";")
    simp only [printable_append]
    exact ⟨⟨⟨⟨by decide, printable_of_word (names_of_mem_locals h hv).1.1⟩, by decide⟩,
      printable_vector v.type⟩, by decide⟩
  have hfirst : PrintableLines ["  process(clk, reset)"] := List.forall_mem_singleton.2 (by decide)
  have hmiddle : PrintableLines ["  begin", "    if reset = '1' then", "      -- Reset logic",
      "    elsif rising_edge(clk) then"] := by
    unfold PrintableLines
    decide
  have hlast : PrintableLines ["    end if;", "  end process;"] := by
    unfold PrintableLines
    decide
  have hclocked := Sequential.printable_linesOfList _ 3 (spelled_clocked h)
  simp only [Process.lines, printableLines_append]
  exact ⟨⟨⟨⟨hfirst, hvariables⟩, hmiddle⟩, hclocked⟩, hlast⟩

end Function

/-! ## The lines of a text -/

/-- The lines of a text, each of which ends in a line break. -/
def textLines (text : String) : List String :=
  (text.toList.splitOnP (· == '\n')).dropLast.map String.ofList

theorem unlines_cons (line : String) (lines : List String) :
    unlines (line :: lines) = line ++ "\n" ++ unlines lines :=
  String.join_cons

/-- A text of printable lines has these lines. -/
theorem textLines_unlines {lines : List String} (h : PrintableLines lines) :
    textLines (unlines lines) = lines := by
  have hsplit : (unlines lines).toList.splitOnP (· == '\n') =
      lines.map String.toList ++ [[]] := by
    induction lines with
    | nil => rfl
    | cons line lines ih =>
      obtain ⟨hline, hlines⟩ := printableLines_cons.1 h
      have hbreak : ∀ c ∈ line.toList, (c == '\n') = false := by
        refine fun c hc => beq_false_of_ne ?_
        rintro rfl
        exact absurd (List.all_eq_true.1 hline _ hc) (by decide)
      have htext : (unlines (line :: lines)).toList =
          line.toList ++ '\n' :: (unlines lines).toList := by
        rw [unlines_cons, String.toList_append, String.toList_append, List.append_assoc]
        rfl
      rw [htext, List.splitOnP_append_cons _ _ (by decide), List.splitOnP_eq_singleton hbreak,
        ih hlines]
      rfl
  rw [textLines, hsplit, List.dropLast_concat, List.map_map]
  simp

end ClockedC
