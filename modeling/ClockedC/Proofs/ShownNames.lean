import ClockedC.Proofs.FunctionSpelling
import ClockedC.Proofs.TextWords

/-!
# Names in the lines of a process

The lines of sequential statements are made from the texts of targets, values and conditions. Which
of them mention the output can be told from the moves that the statements make.

* `Move.parts` are the expressions whose texts stand in the line of a move.
* `Sequential.outputFree_linesOfList`: the lines of some statements are free of the output if and
  only if their moves show no name of it.
* `Move.output_mem_shownNames_lower`: where nothing is held in the output, a move of the process
  shows its name if and only if the move of the body has an element of an array of that name.
-/

namespace ClockedC

open Scan (Word)

/-! ## Renamed expressions -/

namespace Expr

/-- The arrays whose elements are shown in the text of an expression. -/
def shownArrays : Expr → List String
  | number _ | name _ | call .. => []
  | element base index _ => base :: index.shownArrays
  | unary _ operand => operand.shownArrays
  | binary _ left right => left.shownArrays ++ right.shownArrays

/-- Arrays are not renamed. -/
theorem output_mem_shownNames_rename {g : String → String} (hg : ∀ n, g n ≠ outputName) :
    ∀ e : Expr, outputName ∈ (e.rename g).shownNames ↔ outputName ∈ e.shownArrays
  | number _ | call .. => Iff.rfl
  | name n => by simp [rename, shownNames, shownArrays, (hg n).symm]
  | element _ index _ => by
    rw [rename, shownNames, shownArrays, List.mem_cons, List.mem_cons,
      output_mem_shownNames_rename hg index]
  | unary _ operand => output_mem_shownNames_rename hg operand
  | binary _ left right => by
    rw [rename, shownNames, shownArrays, List.mem_append, List.mem_append,
      output_mem_shownNames_rename hg left, output_mem_shownNames_rename hg right]

theorem Spelled.rename {g : String → String} (hg : ∀ n, Word n.toList → Word (g n).toList) :
    ∀ {e : Expr}, e.Spelled → (e.rename g).Spelled
  | number _, h | call .., h => h
  | name n, h => hg n h
  | element .., ⟨hbase, hindex⟩ => ⟨hbase, hindex.rename hg⟩
  | unary _ operand, h => Spelled.rename (e := operand) hg h
  | binary .., ⟨hleft, hright⟩ => ⟨hleft.rename hg, hright.rename hg⟩

theorem shownNames_eq_nil_of_literal {e : Expr} {n : Int} (h : e.literalValue? = some n) :
    e.shownNames = [] := by
  unfold literalValue? at h
  split at h
  · rfl
  · rfl
  · cases h

/-- A condition mentions the output if and only if its expression does. -/
theorem mentions_output_vhdlCondition {e : Expr} (h : e.Spelled) :
    Mentions outputName e.vhdlCondition ↔ outputName ∈ e.shownNames := by
  unfold vhdlCondition
  split
  · exact mentions_output_vhdl h
  · split
    next n hliteral =>
      have hvalue : ¬ Mentions outputName (if n = 0 then "false" else "true") := by
        split <;> decide
      rw [shownNames_eq_nil_of_literal hliteral]
      exact iff_of_false hvalue List.not_mem_nil
    next =>
      have hfirst : ¬ Mentions outputName "unsigned(" := by decide
      have hlast : ¬ Mentions outputName ") /= 0" := by decide
      show Mentions outputName ("unsigned(" ++ e.vhdl ++ ") /= 0") ↔ _
      rw [mentions_between (by decide) (by decide), or_iff_left hlast, or_iff_right hfirst,
        mentions_output_vhdl h]

end Expr

/-! ## Moves -/

/-- A target as an expression. -/
def Target.expr : Target → Expr
  | name n => .name n
  | element base index text => .element base index text

theorem Target.vhdl_expr (t : Target) : t.expr.vhdl = t.vhdl := by
  cases t <;> rfl

namespace Move

/-- The expressions whose texts stand in the line of a move. -/
def parts : Move → List Expr
  | set target value => [target.expr, value]
  | result signal value => [.name signal, value]
  | test condition => [condition]

/-- The names of variables, signals and arrays in the line of a move. -/
def shownNames (m : Move) : List String :=
  m.parts.flatMap Expr.shownNames

/-- The arrays whose elements a move reads or sets. -/
def shownArrays (m : Move) : List String :=
  m.parts.flatMap Expr.shownArrays

/-- The names and numbers in the line of a move are words and numerals. -/
def Spelled (m : Move) : Prop :=
  ∀ e ∈ m.parts, e.Spelled

end Move

/-! ## Moves of the process -/

namespace Move

variable {σ : Scheme} {env target : Env}

/-- Where nothing is held in the output, a move of the process shows its name if and only if the
move of the body has an element of an array of that name. -/
theorem output_mem_shownNames_lower
    (hholder : ∀ env n, (σ.holder env n).name ≠ outputName) (hresult : σ.result ≠ outputName)
    (m : Move) : outputName ∈ (m.lower σ env target).shownNames ↔ outputName ∈ m.shownArrays := by
  have hexpr (e : Expr) : outputName ∈ (σ.expr env e).shownNames ↔ outputName ∈ e.shownArrays :=
    Expr.output_mem_shownNames_rename (hholder env) e
  cases m with
  | test condition => simpa [lower, shownNames, shownArrays, parts] using hexpr condition
  | result signal value =>
    simpa [lower, shownNames, shownArrays, parts, Expr.shownNames, Expr.shownArrays,
      hresult.symm] using hexpr value
  | set t value =>
    cases t with
    | name n =>
      simpa [lower, shownNames, shownArrays, parts, Target.expr, Expr.shownNames, Expr.shownArrays,
        (hholder target n).symm] using hexpr value
    | element base index text =>
      simp [lower, shownNames, shownArrays, parts, Target.expr, Expr.shownNames, Expr.shownArrays,
        hexpr]

theorem WellSpelled.spelled_lower {m : Move} (h : m.WellSpelled)
    (hholder : ∀ {env : Env}, env.WellNamed → ∀ n, Word n.toList →
      Word (σ.holder env n).name.toList)
    (hresult : Word σ.result.toList) (henv : env.WellNamed) (htarget : target.WellNamed) :
    (m.lower σ env target).Spelled := by
  have hexpr {e : Expr} (he : e.WellSpelled) : (σ.expr env e).Spelled :=
    he.spelled.rename (hholder henv)
  obtain ⟨hbase, hexpressions⟩ := h
  cases m with
  | test condition =>
    exact List.forall_mem_singleton.2 (hexpr (List.forall_mem_singleton.1 hexpressions))
  | result signal value =>
    have hvalue := hexpr (List.forall_mem_singleton.1 hexpressions)
    exact List.forall_mem_cons.2 ⟨hresult, List.forall_mem_singleton.2 hvalue⟩
  | set t value =>
    have hname : Word t.base.toList := hbase t.base rfl
    cases t with
    | name n =>
      have hvalue := hexpr (List.forall_mem_singleton.1 hexpressions)
      exact List.forall_mem_cons.2 ⟨hholder htarget n hname, List.forall_mem_singleton.2 hvalue⟩
    | element base index text =>
      obtain ⟨hindex, hvalue⟩ := List.forall_mem_cons.1 hexpressions
      have hvalue := hexpr (List.forall_mem_singleton.1 hvalue)
      exact List.forall_mem_cons.2 ⟨⟨hname, hexpr hindex⟩, List.forall_mem_singleton.2 hvalue⟩

end Move

/-! ## Lines -/

theorem mentions_assignment {arrow : String} (hstarts : startsApart arrow = true)
    (hends : endsApart arrow = true) (hwords : textWords arrow = []) (a b word : String) :
    Mentions word (a ++ arrow ++ b ++ ";") ↔ Mentions word a ∨ Mentions word b := by
  have harrow : ¬ Mentions word arrow := not_mentions_mark hwords
  have hlast : ¬ Mentions word ";" := not_mentions_mark (by decide)
  rw [mentions_between (endsApart_append a hends) (by decide), mentions_append (.inr hstarts),
    or_iff_left hlast, or_iff_left harrow]

/-- The line of an assignment mentions what its sides do. -/
theorem not_mentions_assignment {arrow : String} (hstarts : startsApart arrow = true)
    (hends : endsApart arrow = true) (hwords : textWords arrow = []) {target value : Expr}
    (htarget : target.Spelled) (hvalue : value.Spelled) (depth : Nat) :
    (¬ Mentions outputName (indented depth (target.vhdl ++ arrow ++ value.vhdl ++ ";"))) ↔
      outputName ∉ [target, value].flatMap Expr.shownNames := by
  rw [mentions_indented, mentions_assignment hstarts hends hwords,
    Expr.mentions_output_vhdl htarget, Expr.mentions_output_vhdl hvalue]
  simp

/-- The line of a condition, with words before and behind it. -/
theorem not_mentions_condition {before after : String} (hends : endsApart before = true)
    (hstarts : startsApart after = true) (hbefore : ¬ Mentions outputName before)
    (hafter : ¬ Mentions outputName after) {condition : Expr} (h : condition.Spelled)
    (depth : Nat) :
    (¬ Mentions outputName (indented depth (before ++ condition.vhdlCondition ++ after))) ↔
      outputName ∉ [condition].flatMap Expr.shownNames := by
  rw [mentions_indented, mentions_between hends hstarts, or_iff_left hafter,
    or_iff_right hbefore, Expr.mentions_output_vhdlCondition h]
  simp

theorem not_mentions_fixed {text : String} (h : ¬ Mentions outputName text) (depth : Nat) :
    ¬ Mentions outputName (indented depth text) := by
  rwa [mentions_indented]

/-- No line of a list mentions the output. -/
def OutputFree (lines : List String) : Prop :=
  ∀ line ∈ lines, ¬ Mentions outputName line

theorem outputFree_singleton {line : String} :
    OutputFree [line] ↔ ¬ Mentions outputName line :=
  List.forall_mem_singleton

theorem outputFree_cons {line : String} {lines : List String} :
    OutputFree (line :: lines) ↔ ¬ Mentions outputName line ∧ OutputFree lines :=
  List.forall_mem_cons

theorem outputFree_append {lines lines' : List String} :
    OutputFree (lines ++ lines') ↔ OutputFree lines ∧ OutputFree lines' :=
  List.forall_mem_append

/-- No move of a list shows a name of the output. -/
def HidesOutputName (ms : List Move) : Prop :=
  ∀ m ∈ ms, outputName ∉ m.shownNames

theorem hidesOutputName_singleton {m : Move} :
    HidesOutputName [m] ↔ outputName ∉ m.shownNames :=
  List.forall_mem_singleton

theorem hidesOutputName_cons {m : Move} {ms : List Move} :
    HidesOutputName (m :: ms) ↔ outputName ∉ m.shownNames ∧ HidesOutputName ms :=
  List.forall_mem_cons

theorem hidesOutputName_append {ms ms' : List Move} :
    HidesOutputName (ms ++ ms') ↔ HidesOutputName ms ∧ HidesOutputName ms' :=
  List.forall_mem_append

theorem not_mentions_if {condition : Expr} (h : (Move.test condition).Spelled) (depth : Nat) :
    (¬ Mentions outputName (indented depth s!"if {condition.vhdlCondition} then")) ↔
      outputName ∉ (Move.test condition).shownNames :=
  not_mentions_condition (by decide : endsApart "if " = true)
    (by decide : startsApart " then" = true) (by decide) (by decide)
    (List.forall_mem_singleton.1 h) depth

theorem not_mentions_elsif {condition : Expr} (h : (Move.test condition).Spelled) (depth : Nat) :
    (¬ Mentions outputName (indented depth s!"elsif {condition.vhdlCondition} then")) ↔
      outputName ∉ (Move.test condition).shownNames :=
  not_mentions_condition (by decide : endsApart "elsif " = true)
    (by decide : startsApart " then" = true) (by decide) (by decide)
    (List.forall_mem_singleton.1 h) depth

theorem not_mentions_while {condition : Expr} (h : (Move.test condition).Spelled) (depth : Nat) :
    (¬ Mentions outputName (indented depth s!"while {condition.vhdlCondition} loop")) ↔
      outputName ∉ (Move.test condition).shownNames :=
  not_mentions_condition (by decide : endsApart "while " = true)
    (by decide : startsApart " loop" = true) (by decide) (by decide)
    (List.forall_mem_singleton.1 h) depth

mutual

theorem Sequential.outputFree_lines : ∀ (s : Sequential) (depth : Nat),
    (∀ m ∈ s.moves, m.Spelled) → (OutputFree (s.lines depth) ↔ HidesOutputName s.moves)
  | .setVariable n value, depth, h => by
    obtain ⟨hn, hvalue⟩ := List.forall_mem_cons.1 (List.forall_mem_singleton.1 h)
    have hline := not_mentions_assignment (by decide : startsApart " := " = true) (by decide)
      (by decide) hn (List.forall_mem_singleton.1 hvalue) depth
    rw [Sequential.lines, Sequential.moves, outputFree_singleton, hidesOutputName_singleton]
    exact hline
  | .setSignal target value, depth, h => by
    obtain ⟨htarget, hvalue⟩ := List.forall_mem_cons.1 (List.forall_mem_singleton.1 h)
    have hline := not_mentions_assignment (by decide : startsApart " <= " = true) (by decide)
      (by decide) htarget (List.forall_mem_singleton.1 hvalue) depth
    rw [target.vhdl_expr] at hline
    rw [Sequential.lines, Sequential.moves, outputFree_singleton, hidesOutputName_singleton]
    exact hline
  | .setResult signal value, depth, h => by
    obtain ⟨hsignal, hvalue⟩ := List.forall_mem_cons.1 (List.forall_mem_singleton.1 h)
    have hline := not_mentions_assignment (by decide : startsApart " <= " = true) (by decide)
      (by decide) hsignal (List.forall_mem_singleton.1 hvalue) depth
    rw [Sequential.lines, Sequential.moves, outputFree_singleton, hidesOutputName_singleton]
    exact hline
  | .branch condition body otherwise, depth, h => by
    obtain ⟨hcondition, hrest⟩ := List.forall_mem_cons.1 h
    obtain ⟨hbody, hotherwise⟩ := List.forall_mem_append.1 hrest
    have hend : OutputFree [indented depth "end if;"] :=
      List.forall_mem_singleton.2 (not_mentions_fixed (by decide) depth)
    rw [Sequential.lines, Sequential.moves, outputFree_append, and_iff_left hend,
      outputFree_append, List.cons_append, hidesOutputName_cons, hidesOutputName_append,
      outputFree_cons, not_mentions_if hcondition, Sequential.outputFree_linesOfList body _ hbody,
      otherwise.outputFree_lines depth hotherwise, and_assoc]
  | .loop condition body, depth, h => by
    obtain ⟨hcondition, hbody⟩ := List.forall_mem_cons.1 h
    have hend : OutputFree [indented depth "end loop;"] :=
      List.forall_mem_singleton.2 (not_mentions_fixed (by decide) depth)
    rw [Sequential.lines, Sequential.moves, outputFree_append, and_iff_left hend,
      hidesOutputName_cons, outputFree_cons, not_mentions_while hcondition,
      Sequential.outputFree_linesOfList body _ hbody]
  | .exit, depth, _ =>
    iff_of_true (List.forall_mem_singleton.2 (not_mentions_fixed (by decide) depth))
      (List.forall_mem_nil _)
  | .next, depth, _ =>
    iff_of_true (List.forall_mem_singleton.2 (not_mentions_fixed (by decide) depth))
      (List.forall_mem_nil _)

theorem Elsewise.outputFree_lines : ∀ (e : Elsewise) (depth : Nat), (∀ m ∈ e.moves, m.Spelled) →
    (OutputFree (e.lines depth) ↔ HidesOutputName e.moves)
  | .none, _, _ => iff_of_true (List.forall_mem_nil _) (List.forall_mem_nil _)
  | .body body, depth, h => by
    rw [Elsewise.lines, Elsewise.moves, outputFree_cons, Sequential.outputFree_linesOfList body _ h]
    exact and_iff_right (not_mentions_fixed (by decide) depth)
  | .branch condition body otherwise, depth, h => by
    obtain ⟨hcondition, hrest⟩ := List.forall_mem_cons.1 h
    obtain ⟨hbody, hotherwise⟩ := List.forall_mem_append.1 hrest
    rw [Elsewise.lines, Elsewise.moves, outputFree_append, List.cons_append,
      hidesOutputName_cons, hidesOutputName_append, outputFree_cons,
      not_mentions_elsif hcondition, Sequential.outputFree_linesOfList body _ hbody,
      otherwise.outputFree_lines depth hotherwise, and_assoc]

/-- The lines of statements are free of the output if and only if their moves do not show it. -/
theorem Sequential.outputFree_linesOfList : ∀ (ss : List Sequential) (depth : Nat),
    (∀ m ∈ Sequential.movesOfList ss, m.Spelled) →
    (OutputFree (Sequential.linesOfList depth ss) ↔ HidesOutputName (Sequential.movesOfList ss))
  | [], _, _ => iff_of_true (List.forall_mem_nil _) (List.forall_mem_nil _)
  | s :: ss, depth, h => by
    obtain ⟨hs, hss⟩ := List.forall_mem_append.1 h
    rw [Sequential.linesOfList, Sequential.movesOfList, outputFree_append,
      hidesOutputName_append, s.outputFree_lines depth hs,
      Sequential.outputFree_linesOfList ss depth hss]

end

end ClockedC
