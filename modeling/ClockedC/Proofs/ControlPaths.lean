import ClockedC.Proofs.Execution
import ClockedC.Proofs.Scopes

/-!
# Paths through a process

A path goes through the statements of a process with any choice at each branch and any count of
rounds of each loop. It is given by the statements that are carried out on it, in order.

A `return` drives the output and lets the process go on. So a `return` ends a path only where
nothing follows it, and which functions these are can be read off their statements.

* `Sequential.Paths` are the paths through a list of statements.
* `ReturnsLast` says that nothing is carried out on a path after a result has been driven.
* `Block.returnsLast` is the condition on the statements of a function.
* `Function.returnsLast_iff`: the condition is met if and only if a `return` ends every path.
-/

namespace ClockedC

/-! ## Paths -/

/-- A way through part of a process: the statements that are carried out, and the jump at its end if
it has one. -/
abbrev PathSet := List Sequential → Option Jump → Prop

/-- The ways through any count of rounds of a loop. -/
inductive Rounds (round : PathSet) : List Sequential → Prop
  | stop : Rounds round []
  | left {trace : List Sequential} (h : round trace (some .leave)) : Rounds round trace
  | more {trace rest : List Sequential} {jump : Option Jump} (h : round trace jump)
      (stays : jump ≠ some .leave) (others : Rounds round rest) : Rounds round (trace ++ rest)

mutual

/-- The paths through a statement. -/
def Sequential.Path : Sequential → PathSet
  | .branch condition body otherwise, trace, jump =>
    ∃ inner, trace = .branch condition body otherwise :: inner ∧
      (Sequential.Paths body inner jump ∨ otherwise.Path inner jump)
  | .loop condition body, trace, jump =>
    ∃ inner, trace = .loop condition body :: inner ∧ Rounds (Sequential.Paths body) inner ∧
      jump = none
  | .exit, trace, jump => trace = [.exit] ∧ jump = some .leave
  | .next, trace, jump => trace = [.next] ∧ jump = some .again
  | .setVariable name value, trace, jump => trace = [.setVariable name value] ∧ jump = none
  | .setSignal target value, trace, jump => trace = [.setSignal target value] ∧ jump = none
  | .setResult signal value, trace, jump => trace = [.setResult signal value] ∧ jump = none

/-- The paths where the condition of a branch fails. -/
def Elsewise.Path : Elsewise → PathSet
  | .none, trace, jump => trace = [] ∧ jump = none
  | .body body, trace, jump => Sequential.Paths body trace jump
  | .branch _ body otherwise, trace, jump =>
    Sequential.Paths body trace jump ∨ otherwise.Path trace jump

/-- The paths through a list of statements. -/
def Sequential.Paths : List Sequential → PathSet
  | [], trace, jump => trace = [] ∧ jump = none
  | s :: ss, trace, jump =>
    (∃ first rest, trace = first ++ rest ∧ s.Path first none ∧ Sequential.Paths ss rest jump) ∨
      jump ≠ none ∧ s.Path trace jump

end

/-- Whether a statement drives the result of a function. -/
def Sequential.isResult : Sequential → Bool
  | .setResult .. => true
  | .setVariable .. | .setSignal .. | .branch .. | .loop .. | .exit | .next => false

/-- Nothing is carried out after a result has been driven. -/
def ReturnsLast (trace : List Sequential) : Prop :=
  ∀ before s after, trace = before ++ s :: after → s.isResult = true → after = []

/-! ## The condition on the statements -/

mutual

/-- Whether a process may go on behind a statement. It does so behind a `return`. -/
def Stmt.fallsThrough : Stmt → Bool
  | .branch _ body otherwise _ => Block.fallsThrough body || otherwise.fallsThrough
  | .jump .. => false
  | .declare _ | .assign _ | .ret .. | .whileLoop .. | .forLoop .. => true

/-- Whether a process may go on behind an alternative. -/
def Alternative.fallsThrough : Alternative → Bool
  | .none => true
  | .body body => Block.fallsThrough body
  | .branch _ body otherwise _ => Block.fallsThrough body || otherwise.fallsThrough

/-- Whether a process may go on behind a body. -/
def Block.fallsThrough : List Stmt → Bool
  | [] => true
  | s :: ss => s.fallsThrough && Block.fallsThrough ss

end

mutual

/-- Whether a result may be driven inside of a statement. -/
def Stmt.drivesResult : Stmt → Bool
  | .ret value _ => value.isSome
  | .branch _ body otherwise _ => Block.drivesResult body || otherwise.drivesResult
  | .whileLoop _ body _ => Block.drivesResult body
  | .forLoop _ _ body _ _ => Block.drivesResult body
  | .declare _ | .assign _ | .jump .. => false

/-- Whether a result may be driven inside of an alternative. -/
def Alternative.drivesResult : Alternative → Bool
  | .none => false
  | .body body => Block.drivesResult body
  | .branch _ body otherwise _ => Block.drivesResult body || otherwise.drivesResult

/-- Whether a result may be driven inside of a body. What stands behind a jump is never reached. -/
def Block.drivesResult : List Stmt → Bool
  | [] => false
  | s :: ss => s.drivesResult || s.fallsThrough && Block.drivesResult ss

end

/-- Whether a declaration is nothing to do for the process. -/
def Declaration.isSilent (d : Declaration) : Bool :=
  match d.form with
  | .scalar init => init.isNone
  | .array .. => true

/-- Whether a statement is nothing to do for the process. -/
def Stmt.isSilent : Stmt → Bool
  | .declare d => d.isSilent
  | .ret value _ => value.isNone
  | .assign _ | .branch .. | .whileLoop .. | .forLoop .. | .jump .. => false

mutual

/-- Whether a result is driven last inside of a statement. In a loop it never is. -/
def Stmt.returnsLast : Stmt → Bool
  | .branch _ body otherwise _ => Block.returnsLast body && otherwise.returnsLast
  | .whileLoop _ body _ => !Block.drivesResult body
  | .forLoop _ _ body _ _ => !Block.drivesResult body
  | .declare _ | .assign _ | .ret .. | .jump .. => true

/-- Whether a result is driven last inside of an alternative. -/
def Alternative.returnsLast : Alternative → Bool
  | .none => true
  | .body body => Block.returnsLast body
  | .branch _ body otherwise _ => Block.returnsLast body && otherwise.returnsLast

/-- Whether a result is driven last inside of a body: behind a statement that may drive it there is
nothing to do. -/
def Block.returnsLast : List Stmt → Bool
  | [] => true
  | s :: ss =>
    s.returnsLast && (!s.drivesResult || ss.all Stmt.isSilent) &&
      (!s.fallsThrough || Block.returnsLast ss)

end

/-! ## Results on a path -/

/-- No result is driven on a path. -/
def Resultless (trace : List Sequential) : Prop := ∀ s ∈ trace, s.isResult = false

theorem not_resultless_iff {trace : List Sequential} :
    ¬ Resultless trace ↔ trace.any Sequential.isResult = true := by
  simp [Resultless]

theorem resultless_append {first rest : List Sequential} :
    Resultless (first ++ rest) ↔ Resultless first ∧ Resultless rest := by
  simp [Resultless, or_imp, forall_and]

namespace ReturnsLast

variable {first rest : List Sequential}

theorem of_resultless {trace : List Sequential} (h : Resultless trace) : ReturnsLast trace := by
  intro before s after heq hs
  have hmem : s ∈ trace := heq ▸ List.mem_append_right before List.mem_cons_self
  rw [h s hmem] at hs
  cases hs

theorem left (h : ReturnsLast (first ++ rest)) : ReturnsLast first := by
  intro before s after heq hs
  have hafter := h before s (after ++ rest) (by rw [heq]; simp) hs
  exact (List.append_eq_nil_iff.mp hafter).1

theorem right (h : ReturnsLast (first ++ rest)) : ReturnsLast rest := by
  intro before s after heq hs
  exact h (first ++ before) s after (by rw [heq, List.append_assoc]) hs

theorem resultless_left (h : ReturnsLast (first ++ rest)) (hrest : rest ≠ []) :
    Resultless first := by
  intro s hs
  obtain ⟨before, after, rfl⟩ := List.append_of_mem hs
  rw [← Bool.not_eq_true]
  intro hresult
  have hafter := h before s (after ++ rest) (by simp) hresult
  exact hrest (List.append_eq_nil_iff.mp hafter).2

theorem append (hfirst : Resultless first) (hrest : ReturnsLast rest) :
    ReturnsLast (first ++ rest) := by
  intro before s after heq hs
  rcases List.append_eq_append_iff.mp heq with ⟨middle, rfl, hmiddle⟩ | ⟨middle, rfl, hmiddle⟩
  · exact hrest middle s after hmiddle hs
  · cases middle with
    | nil => exact hrest [] s after hmiddle.symm hs
    | cons s' middle =>
      -- The result would be among the first statements.
      injection hmiddle with hhead
      have hno := hfirst s' (List.mem_append_right before List.mem_cons_self)
      rw [← hhead, hs] at hno
      cases hno

/-- A result is driven once at most. -/
theorem countP_le_one : ∀ {trace : List Sequential}, ReturnsLast trace →
    trace.countP Sequential.isResult ≤ 1
  | [], _ => by simp
  | s :: trace, h => by
    by_cases hs : s.isResult = true
    · have hnil := h [] s trace rfl hs
      rw [hnil]
      exact List.countP_le_length
    · rw [List.countP_cons_of_neg (by simpa using hs)]
      exact countP_le_one (right (show ReturnsLast ([s] ++ trace) from h))

end ReturnsLast

/-- The last statement on a path is no result. -/
def EndsPlain (trace : List Sequential) : Prop :=
  ∃ before s, trace = before ++ [s] ∧ s.isResult = false

theorem EndsPlain.append_left {trace : List Sequential} (h : EndsPlain trace)
    (first : List Sequential) : EndsPlain (first ++ trace) := by
  obtain ⟨before, s, rfl, hs⟩ := h
  exact ⟨first ++ before, s, by rw [List.append_assoc], hs⟩

theorem EndsPlain.resultless {trace : List Sequential} (h : EndsPlain trace)
    (hlast : ReturnsLast trace) : Resultless trace := by
  obtain ⟨before, s, rfl, hs⟩ := h
  have hbefore := hlast.resultless_left (by simp)
  intro s' hs'
  rcases List.mem_append.mp hs' with hmem | hmem
  · exact hbefore s' hmem
  · rw [List.mem_singleton.mp hmem]
    exact hs

mutual

/-- A path that ends in a jump has it as its last statement. -/
theorem Sequential.Path.endsPlain : ∀ {s : Sequential} {trace : List Sequential} {jump : Jump},
    s.Path trace (some jump) → EndsPlain trace
  | .branch condition body otherwise, _, jump, h => by
    rw [Sequential.Path] at h
    obtain ⟨inner, rfl, hbody | hother⟩ := h
    · exact (Sequential.Paths.endsPlain hbody).append_left [_]
    · exact (Elsewise.Path.endsPlain hother).append_left [_]
  | .loop .., _, _, h => by
    rw [Sequential.Path] at h
    obtain ⟨_, _, _, hjump⟩ := h
    cases hjump
  | .exit, _, _, h => by
    rw [Sequential.Path] at h
    exact ⟨[], .exit, h.1, rfl⟩
  | .next, _, _, h => by
    rw [Sequential.Path] at h
    exact ⟨[], .next, h.1, rfl⟩
  | .setVariable .., _, _, h | .setSignal .., _, _, h | .setResult .., _, _, h => by
    rw [Sequential.Path] at h
    cases h.2

theorem Elsewise.Path.endsPlain : ∀ {o : Elsewise} {trace : List Sequential} {jump : Jump},
    o.Path trace (some jump) → EndsPlain trace
  | .none, _, _, h => by
    rw [Elsewise.Path] at h
    cases h.2
  | .body body, _, _, h => by
    rw [Elsewise.Path] at h
    exact Sequential.Paths.endsPlain h
  | .branch _ body otherwise, _, _, h => by
    rw [Elsewise.Path] at h
    rcases h with hbody | hother
    · exact Sequential.Paths.endsPlain hbody
    · exact Elsewise.Path.endsPlain hother

theorem Sequential.Paths.endsPlain : ∀ {ss : List Sequential} {trace : List Sequential}
    {jump : Jump}, Sequential.Paths ss trace (some jump) → EndsPlain trace
  | [], _, _, h => by
    rw [Sequential.Paths] at h
    cases h.2
  | s :: ss, _, _, h => by
    rw [Sequential.Paths] at h
    rcases h with ⟨first, rest, rfl, -, hrest⟩ | ⟨-, hfirst⟩
    · exact (Sequential.Paths.endsPlain hrest).append_left first
    · exact Sequential.Path.endsPlain hfirst

end

theorem Sequential.Path.ne_nil {s : Sequential} {trace : List Sequential} {jump : Option Jump}
    (h : s.Path trace jump) : trace ≠ [] := by
  rintro rfl
  cases s <;> simp [Sequential.Path] at h

theorem Sequential.Paths.ne_nil {ss : List Sequential} {trace : List Sequential}
    {jump : Option Jump} (h : Sequential.Paths ss trace jump) (hss : ss ≠ []) : trace ≠ [] := by
  cases ss with
  | nil => exact absurd rfl hss
  | cons s ss =>
    rw [Sequential.Paths] at h
    rcases h with ⟨first, rest, rfl, hfirst, -⟩ | ⟨-, hfirst⟩
    · exact List.append_ne_nil_of_left_ne_nil hfirst.ne_nil rest
    · exact hfirst.ne_nil

/-- A path through two lists goes through both, or it jumps out of the first. -/
theorem Sequential.paths_append {ss ss' : List Sequential} {trace : List Sequential}
    {jump : Option Jump} :
    Sequential.Paths (ss ++ ss') trace jump ↔
      (∃ first rest, trace = first ++ rest ∧ Sequential.Paths ss first none ∧
        Sequential.Paths ss' rest jump) ∨
      jump ≠ none ∧ Sequential.Paths ss trace jump := by
  induction ss generalizing trace with
  | nil =>
    rw [List.nil_append]
    constructor
    · intro h
      exact .inl ⟨[], trace, rfl, by rw [Sequential.Paths]; exact ⟨rfl, rfl⟩, h⟩
    · rintro (⟨first, rest, rfl, hfirst, hrest⟩ | ⟨hjump, h⟩)
      · rw [Sequential.Paths] at hfirst
        rw [hfirst.1]
        exact hrest
      · rw [Sequential.Paths] at h
        exact absurd h.2 hjump
  | cons s ss ih =>
    rw [List.cons_append, Sequential.Paths, Sequential.Paths]
    constructor
    · rintro (⟨first, rest, rfl, hfirst, hrest⟩ | ⟨hjump, hfirst⟩)
      · rcases ih.mp hrest with ⟨middle, rest, rfl, hmiddle, hrest⟩ | ⟨hjump, hrest⟩
        · refine .inl ⟨first ++ middle, rest, by rw [List.append_assoc], ?_, hrest⟩
          rw [Sequential.Paths]
          exact .inl ⟨first, middle, rfl, hfirst, hmiddle⟩
        · exact .inr ⟨hjump, .inl ⟨first, rest, rfl, hfirst, hrest⟩⟩
      · exact .inr ⟨hjump, .inr ⟨hjump, hfirst⟩⟩
    · rintro (⟨before, rest, rfl, hbefore, hrest⟩ | ⟨hjump, ⟨first, rest, rfl, hfirst, hrest⟩ | h⟩)
      · rw [Sequential.Paths] at hbefore
        rcases hbefore with ⟨first, middle, rfl, hfirst, hmiddle⟩ | ⟨hnone, -⟩
        · refine .inl ⟨first, middle ++ rest, by rw [List.append_assoc], hfirst, ?_⟩
          exact ih.mpr (.inl ⟨middle, rest, rfl, hmiddle, hrest⟩)
        · exact absurd rfl hnone
      · exact .inl ⟨first, rest, rfl, hfirst, ih.mpr (.inr ⟨hjump, hrest⟩)⟩
      · exact .inr h

/-- A path that falls through the first part goes on through the second. -/
theorem Sequential.Paths.append {ss ss' first rest : List Sequential} {jump : Option Jump}
    (hfirst : Paths ss first none) (hrest : Paths ss' rest jump) :
    Paths (ss ++ ss') (first ++ rest) jump :=
  paths_append.mpr (.inl ⟨first, rest, rfl, hfirst, hrest⟩)

/-! ## Descriptions of paths -/

/-- What there is to know of some paths: whether one of them falls through, whether a result is
driven on one of them, and whether it comes last on all of them. -/
structure Describes (paths : PathSet) (falls result last : Bool) : Prop where
  nonempty : ∃ trace jump, paths trace jump
  falls_iff : (∃ trace, paths trace none) ↔ falls = true
  result_iff : (∃ trace jump, paths trace jump ∧ ¬ Resultless trace) ↔ result = true
  last_iff : (∀ trace jump, paths trace jump → ReturnsLast trace) ↔ last = true

namespace Describes

variable {paths paths' : PathSet} {falls falls' result result' last last' : Bool}
  {ss ss' : List Sequential}

theorem resultless (h : Describes paths falls false last) {trace : List Sequential}
    {jump : Option Jump} (hpath : paths trace jump) : Resultless trace := by
  apply Classical.byContradiction
  intro hresult
  exact absurd (h.result_iff.mp ⟨trace, jump, hpath, hresult⟩) Bool.false_ne_true

/-- A single path. -/
theorem single (trace : List Sequential) (jump : Option Jump) (hlast : ReturnsLast trace)
    (h : ∀ trace' jump', paths trace' jump' ↔ trace' = trace ∧ jump' = jump) :
    Describes paths jump.isNone (trace.any Sequential.isResult) true := by
  refine ⟨⟨trace, jump, (h _ _).mpr ⟨rfl, rfl⟩⟩, ?_, ?_, ?_⟩
  · constructor
    · rintro ⟨trace', hpath⟩
      rw [← ((h _ _).mp hpath).2]
      rfl
    · intro hnone
      exact ⟨trace, (h _ _).mpr ⟨rfl, (Option.isNone_iff_eq_none.mp hnone).symm⟩⟩
  · rw [← not_resultless_iff]
    constructor
    · rintro ⟨trace', jump', hpath, hresult⟩
      rw [((h _ _).mp hpath).1] at hresult
      exact hresult
    · intro hresult
      exact ⟨trace, jump, (h _ _).mpr ⟨rfl, rfl⟩, hresult⟩
  · refine ⟨fun _ => rfl, ?_⟩
    intro _ trace' jump' hpath
    rw [((h _ _).mp hpath).1]
    exact hlast

theorem nil : Describes (Sequential.Paths []) true false true := by
  refine single [] none (.of_resultless ?_) ?_
  · intro s hs
    cases hs
  · intro trace jump
    rw [Sequential.Paths]

section Append

variable {trace : List Sequential} {jump : Option Jump}

/-- Every path through the first part is the start of a path through both. -/
theorem exists_paths_append (h' : Describes (Sequential.Paths ss') falls' result' last')
    (hpath : Sequential.Paths ss trace jump) :
    ∃ rest jump', Sequential.Paths (ss ++ ss') (trace ++ rest) jump' ∧
      (rest ≠ [] ∨ ss' = [] ∨ EndsPlain trace) := by
  cases jump with
  | none =>
    obtain ⟨after, jump', hafter⟩ := h'.nonempty
    refine ⟨after, jump', hpath.append hafter, ?_⟩
    by_cases hnil : ss' = []
    · exact .inr (.inl hnil)
    · exact .inl (hafter.ne_nil hnil)
  | some jump =>
    refine ⟨[], some jump, ?_, .inr (.inr (Sequential.Paths.endsPlain hpath))⟩
    rw [List.append_nil]
    exact Sequential.paths_append.mpr (.inr ⟨Option.some_ne_none jump, hpath⟩)

theorem falls_append :
    (∃ trace, Sequential.Paths (ss ++ ss') trace none) ↔
      (∃ trace, Sequential.Paths ss trace none) ∧ ∃ trace, Sequential.Paths ss' trace none := by
  constructor
  · rintro ⟨trace, hpath⟩
    rcases Sequential.paths_append.mp hpath with ⟨first, rest, rfl, hfirst, hrest⟩ | ⟨hnone, -⟩
    · exact ⟨⟨first, hfirst⟩, ⟨rest, hrest⟩⟩
    · exact absurd rfl hnone
  · rintro ⟨⟨first, hfirst⟩, ⟨rest, hrest⟩⟩
    exact ⟨first ++ rest, hfirst.append hrest⟩

/-- A result is driven in the first part, or in the second where that is reached. -/
theorem result_append (h : Describes (Sequential.Paths ss) falls result last)
    (h' : Describes (Sequential.Paths ss') falls' result' last') :
    (∃ trace jump, Sequential.Paths (ss ++ ss') trace jump ∧ ¬ Resultless trace) ↔
      result = true ∨ falls = true ∧ result' = true := by
  rw [← h.result_iff, ← h.falls_iff, ← h'.result_iff]
  constructor
  · rintro ⟨trace, jump, hpath, hresult⟩
    rcases Sequential.paths_append.mp hpath with ⟨first, rest, rfl, hfirst, hrest⟩ | ⟨-, hfirst⟩
    · by_cases hno : Resultless first
      · refine .inr ⟨⟨first, hfirst⟩, rest, jump, hrest, ?_⟩
        intro hno'
        exact hresult (resultless_append.mpr ⟨hno, hno'⟩)
      · exact .inl ⟨first, none, hfirst, hno⟩
    · exact .inl ⟨trace, jump, hfirst, hresult⟩
  · rintro (⟨trace, jump, hpath, hresult⟩ | ⟨⟨first, hfirst⟩, rest, jump, hrest, hresult⟩)
    · obtain ⟨rest, jump', hpath', -⟩ := h'.exists_paths_append hpath
      exact ⟨trace ++ rest, jump', hpath', fun hno => hresult (resultless_append.mp hno).1⟩
    · refine ⟨first ++ rest, jump, hfirst.append hrest, ?_⟩
      exact fun hno => hresult (resultless_append.mp hno).2

/-- Where results come last in both parts, nothing follows the first part that has one. -/
theorem nothing_after_result (h : Describes (Sequential.Paths ss) falls true last)
    (h' : Describes (Sequential.Paths ss') falls' result' last')
    (hall : ∀ trace jump, Sequential.Paths (ss ++ ss') trace jump → ReturnsLast trace) :
    ss' = [] := by
  obtain ⟨trace, jump, hpath, hresult⟩ := h.result_iff.mpr rfl
  obtain ⟨rest, jump', hpath', hrest | hnil | hends⟩ := h'.exists_paths_append hpath
  · exact absurd ((hall _ _ hpath').resultless_left hrest) hresult
  · exact hnil
  · exact absurd (hends.resultless (hall _ _ hpath').left) hresult

/-- Results come last in both parts where they do in each and one of the parts has none. -/
theorem last_append (h : Describes (Sequential.Paths ss) falls result last)
    (h' : Describes (Sequential.Paths ss') falls' result' last') :
    (∀ trace jump, Sequential.Paths (ss ++ ss') trace jump → ReturnsLast trace) ↔
      last = true ∧ (result = true → ss' = []) ∧ (falls = true → last' = true) := by
  constructor
  · intro hall
    refine ⟨h.last_iff.mp ?_, ?_, ?_⟩
    · intro trace jump hpath
      obtain ⟨rest, jump', hpath', -⟩ := h'.exists_paths_append hpath
      exact (hall _ _ hpath').left
    · rintro rfl
      exact h.nothing_after_result h' hall
    · intro hfalls
      obtain ⟨first, hfirst⟩ := h.falls_iff.mpr hfalls
      apply h'.last_iff.mp
      intro rest jump hrest
      exact (hall _ _ (hfirst.append hrest)).right
  · rintro ⟨hlast, hnothing, hrestLast⟩ trace jump hpath
    rcases Sequential.paths_append.mp hpath with ⟨first, rest, rfl, hfirst, hrest⟩ | ⟨-, hfirst⟩
    · have hfalls := h.falls_iff.mp ⟨first, hfirst⟩
      have hreturns := h'.last_iff.mpr (hrestLast hfalls) rest jump hrest
      cases result with
      | false => exact ReturnsLast.append (h.resultless hfirst) hreturns
      | true =>
        obtain rfl := hnothing rfl
        rw [Sequential.Paths] at hrest
        rw [hrest.1, List.append_nil]
        exact h.last_iff.mpr hlast first none hfirst
    · exact h.last_iff.mpr hlast trace jump hfirst

/-- One part after the other. Behind a result there must be nothing left. -/
theorem append (h : Describes (Sequential.Paths ss) falls result last)
    (h' : Describes (Sequential.Paths ss') falls' result' last') :
    Describes (Sequential.Paths (ss ++ ss')) (falls && falls') (result || falls && result')
      (last && (!result || ss'.isEmpty) && (!falls || last')) := by
  refine ⟨?_, ?_, ?_, ?_⟩
  · obtain ⟨trace, jump, hpath⟩ := h.nonempty
    obtain ⟨rest, jump', hpath', -⟩ := h'.exists_paths_append hpath
    exact ⟨trace ++ rest, jump', hpath'⟩
  · rw [falls_append, h.falls_iff, h'.falls_iff, Bool.and_eq_true]
  · rw [h.result_append h', Bool.or_eq_true, Bool.and_eq_true]
  · rw [h.last_append h', ← List.isEmpty_iff]
    cases last <;> cases result <;> cases falls <;> simp

end Append

/-- Either of two parts. -/
theorem or (h : Describes paths falls result last) (h' : Describes paths' falls' result' last') :
    Describes (fun trace jump => paths trace jump ∨ paths' trace jump) (falls || falls')
      (result || result') (last && last') := by
  refine ⟨?_, ?_, ?_, ?_⟩
  · obtain ⟨trace, jump, hpath⟩ := h.nonempty
    exact ⟨trace, jump, .inl hpath⟩
  · rw [Bool.or_eq_true, ← h.falls_iff, ← h'.falls_iff, exists_or]
  · rw [Bool.or_eq_true, ← h.result_iff, ← h'.result_iff]
    simp only [or_and_right, exists_or]
  · rw [Bool.and_eq_true, ← h.last_iff, ← h'.last_iff]
    simp only [or_imp, forall_and]

/-- The statement around a part comes before it. -/
theorem cons (h : Describes paths falls result last) {s : Sequential} (hs : s.isResult = false) :
    Describes (fun trace jump => ∃ inner, trace = s :: inner ∧ paths inner jump) falls result
      last := by
  have hresultless : ∀ inner, Resultless (s :: inner) ↔ Resultless inner := by
    intro inner
    simp [Resultless, hs]
  refine ⟨?_, ?_, ?_, ?_⟩
  · obtain ⟨inner, jump, hpath⟩ := h.nonempty
    exact ⟨s :: inner, jump, inner, rfl, hpath⟩
  · rw [← h.falls_iff]
    constructor
    · rintro ⟨_, inner, rfl, hpath⟩
      exact ⟨inner, hpath⟩
    · rintro ⟨inner, hpath⟩
      exact ⟨s :: inner, inner, rfl, hpath⟩
  · rw [← h.result_iff]
    constructor
    · rintro ⟨_, jump, ⟨inner, rfl, hpath⟩, hresult⟩
      exact ⟨inner, jump, hpath, fun hno => hresult ((hresultless inner).mpr hno)⟩
    · rintro ⟨inner, jump, hpath, hresult⟩
      exact ⟨s :: inner, jump, ⟨inner, rfl, hpath⟩, fun hno => hresult ((hresultless inner).mp hno)⟩
  · rw [← h.last_iff]
    constructor
    · intro hall inner jump hpath
      exact ReturnsLast.right (show ReturnsLast ([s] ++ inner) from hall _ jump ⟨inner, rfl, hpath⟩)
    · rintro hall _ jump ⟨inner, rfl, hpath⟩
      have hfirst : Resultless [s] := by simp [Resultless, hs]
      exact ReturnsLast.append hfirst (hall inner jump hpath)

section Rounds

variable {trace : List Sequential} {jump : Option Jump}

/-- A round may be the first of a loop, and one like it may follow unless it leaves the loop. -/
theorem exists_rounds (hpath : paths trace jump) :
    ∃ rest, Rounds paths (trace ++ rest) ∧ (rest = trace ∨ jump = some .leave) := by
  by_cases hleave : jump = some .leave
  · subst hleave
    refine ⟨[], ?_, .inr rfl⟩
    rw [List.append_nil]
    exact .left hpath
  · refine ⟨trace, .more hpath hleave ?_, .inl rfl⟩
    have hlast := Rounds.more hpath hleave .stop
    rw [List.append_nil] at hlast
    exact hlast

theorem resultless_rounds (h : Describes paths falls false last) (htrace : Rounds paths trace) :
    Resultless trace := by
  induction htrace with
  | stop =>
    intro s hs
    cases hs
  | left hpath => exact h.resultless hpath
  | more hpath _ _ ih => exact resultless_append.mpr ⟨h.resultless hpath, ih⟩

/-- Rounds that drive a result cannot all drive it last, because one that does is left by a jump or
may be followed by another one like it. -/
theorem not_returnsLast_rounds (h : Describes (Sequential.Paths ss) falls true last) :
    ¬ ∀ trace, Rounds (Sequential.Paths ss) trace → ReturnsLast trace := by
  intro hall
  obtain ⟨trace, jump, hpath, hresult⟩ := h.result_iff.mpr rfl
  obtain ⟨rest, hrounds, rfl | rfl⟩ := exists_rounds hpath
  · have hne : rest ≠ [] := by
      rintro rfl
      exact hresult (by intro s hs; cases hs)
    exact hresult ((hall _ hrounds).resultless_left hne)
  · exact hresult ((Sequential.Paths.endsPlain hpath).resultless (hall _ hrounds).left)

/-- The rounds of a loop, in which a result is never the last. -/
theorem rounds (h : Describes (Sequential.Paths ss) falls result last) :
    Describes (fun trace jump => Rounds (Sequential.Paths ss) trace ∧ jump = none) true result
      (!result) := by
  refine ⟨⟨[], none, .stop, rfl⟩, ⟨fun _ => rfl, fun _ => ⟨[], .stop, rfl⟩⟩, ?_, ?_⟩
  · constructor
    · rintro ⟨trace, jump, ⟨htrace, -⟩, hresult⟩
      cases result with
      | false => exact absurd (h.resultless_rounds htrace) hresult
      | true => rfl
    · intro hresult
      obtain ⟨trace, jump, hpath, hres⟩ := h.result_iff.mpr hresult
      obtain ⟨rest, hrounds, -⟩ := exists_rounds hpath
      exact ⟨trace ++ rest, none, ⟨hrounds, rfl⟩, fun hno => hres (resultless_append.mp hno).1⟩
  · constructor
    · intro hall
      cases result with
      | false => rfl
      | true =>
        refine absurd ?_ h.not_returnsLast_rounds
        intro trace htrace
        exact hall trace none ⟨htrace, rfl⟩
    · rintro hno trace jump ⟨htrace, -⟩
      rw [Bool.not_eq_true'] at hno
      subst hno
      exact .of_resultless (h.resultless_rounds htrace)

end Rounds

end Describes

/-! ## Paths through the statements of a function -/

theorem Sequential.paths_singleton (s : Sequential) : Sequential.Paths [s] = s.Path := by
  funext trace jump
  apply propext
  rw [Sequential.Paths]
  constructor
  · rintro (⟨first, rest, rfl, hfirst, hrest⟩ | ⟨-, h⟩)
    · rw [Sequential.Paths] at hrest
      rw [hrest.1, hrest.2, List.append_nil]
      exact hfirst
    · exact h
  · intro h
    cases jump with
    | none => exact .inl ⟨trace, [], by simp, h, by rw [Sequential.Paths]; exact ⟨rfl, rfl⟩⟩
    | some jump => exact .inr ⟨Option.some_ne_none jump, h⟩

/-- A statement that is carried out at once. -/
theorem Sequential.describes_simple (s : Sequential) (jump : Option Jump)
    (h : ∀ trace jump', s.Path trace jump' ↔ trace = [s] ∧ jump' = jump) :
    Describes (Sequential.Paths [s]) jump.isNone s.isResult true := by
  have hlast : ReturnsLast [s] := by
    intro before s' after heq _
    cases before with
    | nil =>
      injection heq with _ hafter
      exact hafter.symm
    | cons b before =>
      injection heq with _ hrest
      exact absurd hrest.symm (by simp)
  have hone := Describes.single [s] jump hlast h
  rw [List.any_cons, List.any_nil, Bool.or_false] at hone
  rw [Sequential.paths_singleton]
  exact hone

theorem Sequential.describes_setVariable (name : String) (value : Expr) :
    Describes (Sequential.Paths [.setVariable name value]) true false true :=
  describes_simple (.setVariable name value) none fun _ _ => by rw [Sequential.Path]

theorem Sequential.describes_setSignal (target : Target) (value : Expr) :
    Describes (Sequential.Paths [.setSignal target value]) true false true :=
  describes_simple (.setSignal target value) none fun _ _ => by rw [Sequential.Path]

theorem Assignment.describes (a : Assignment) (n : Naming) :
    Describes (Sequential.Paths [a.lower n]) true false true := by
  rw [lower]
  split
  · split
    · exact Sequential.describes_setVariable _ _
    · exact Sequential.describes_setSignal _ _
  · exact Sequential.describes_setSignal _ _

theorem describes_increment (increment : Option Assignment) (n : Naming) :
    Describes (Sequential.Paths (increment.map (Assignment.lower n)).toList) true false true := by
  cases increment with
  | none => exact Describes.nil
  | some a => exact a.describes n

theorem Declaration.describes (d : Declaration) (s : Lowering) :
    Describes (Sequential.Paths (d.lower s).1) true false true ∧
      (d.lower s).1.isEmpty = d.isSilent := by
  rw [lower, isSilent]
  rcases d.form with (_ | init) | _
  · exact ⟨Describes.nil, rfl⟩
  · dsimp only
    rcases s.naming.bind s.seen with ⟨_ | v, naming⟩
    · exact ⟨Sequential.describes_setSignal _ _, rfl⟩
    · exact ⟨Sequential.describes_setVariable _ _, rfl⟩
  · exact ⟨Describes.nil, rfl⟩

theorem Stmt.isEmpty_lower (stmt : Stmt) (increment : Option Assignment) (s : Lowering) :
    (stmt.lower increment s).1.isEmpty = stmt.isSilent := by
  cases stmt with
  | declare d =>
    rw [lower]
    exact (d.describes s).2
  | assign a => rw [lower]; rfl
  | ret value position => cases value <;> rw [lower] <;> rfl
  | branch condition body otherwise position => rw [lower]; rfl
  | whileLoop condition body position => rw [lower]; rfl
  | forLoop init condition body step position =>
    cases init <;> rw [lower] <;> simp [isSilent]
  | jump jump position => cases jump <;> rw [lower] <;> simp [Jump.lower, isSilent]

theorem Block.isEmpty_lower (ss : List Stmt) (increment : Option Assignment) (s : Lowering) :
    (Block.lower increment ss s).1.isEmpty = ss.all Stmt.isSilent := by
  induction ss generalizing s with
  | nil => rw [Block.lower]; rfl
  | cons stmt ss ih =>
    rw [Block.lower, List.all_cons, ← ih (stmt.lower increment s).2,
      ← stmt.isEmpty_lower increment s]
    dsimp only
    cases (stmt.lower increment s).1 <;> rfl

/-- A loop with its rounds. -/
theorem Sequential.describes_loop {body : List Sequential} {falls result last : Bool}
    (condition : Expr) (h : Describes (Sequential.Paths body) falls result last) :
    Describes (Sequential.Paths [.loop condition body]) true result (!result) := by
  have hpath : Sequential.Path (.loop condition body) = fun trace jump =>
      ∃ inner, trace = .loop condition body :: inner ∧
        Rounds (Sequential.Paths body) inner ∧ jump = none := by
    funext trace jump
    rw [Sequential.Path]
  rw [Sequential.paths_singleton, hpath]
  exact h.rounds.cons rfl

/-- A branch with both of its sides. -/
theorem Sequential.describes_branch {body : List Sequential} {otherwise : Elsewise}
    {falls falls' result result' last last' : Bool} (condition : Expr)
    (h : Describes (Sequential.Paths body) falls result last)
    (h' : Describes otherwise.Path falls' result' last') :
    Describes (Sequential.Paths [.branch condition body otherwise]) (falls || falls')
      (result || result') (last && last') := by
  have hpath : Sequential.Path (.branch condition body otherwise) = fun trace jump =>
      ∃ inner, trace = .branch condition body otherwise :: inner ∧
        (Sequential.Paths body inner jump ∨ otherwise.Path inner jump) := by
    funext trace jump
    rw [Sequential.Path]
  rw [Sequential.paths_singleton, hpath]
  exact (h.or h').cons rfl

theorem describes_lowerStart (init : Option ForStart) (s : Lowering) :
    Describes (Sequential.Paths (lowerStart init s).1) true false true := by
  rcases init with _ | d | a
  · exact Describes.nil
  · exact (d.describes s).1
  · exact a.describes s.naming

mutual

theorem Stmt.describes : ∀ (stmt : Stmt) (increment : Option Assignment) (s : Lowering),
    Describes (Sequential.Paths (stmt.lower increment s).1) stmt.fallsThrough stmt.drivesResult
      stmt.returnsLast
  | .declare d, _, s => by
    rw [Stmt.lower, Stmt.fallsThrough, Stmt.drivesResult, Stmt.returnsLast]
    exact (d.describes s).1
  | .assign a, _, s => by
    rw [Stmt.lower, Stmt.fallsThrough, Stmt.drivesResult, Stmt.returnsLast]
    exact a.describes s.naming
  | .ret none _, _, s => by
    rw [Stmt.lower, Stmt.fallsThrough, Stmt.drivesResult, Stmt.returnsLast]
    exact Describes.nil
  | .ret (some e) _, _, s => by
    rw [Stmt.lower, Stmt.fallsThrough, Stmt.drivesResult, Stmt.returnsLast]
    exact Sequential.describes_simple (.setResult s.naming.resultTarget (e.resolve s.naming)) none
      fun _ _ => by rw [Sequential.Path]
  | .branch condition body otherwise _, increment, s => by
    have hbody := Block.describes body increment s.push
    have hother := Alternative.describes otherwise increment
      (Block.lower increment body s.push).2.pop
    rw [Stmt.lower, Stmt.fallsThrough, Stmt.drivesResult, Stmt.returnsLast]
    exact Sequential.describes_branch _ hbody hother
  | .whileLoop condition body _, _, s => by
    have hbody := Block.describes body none s.push
    rw [Stmt.lower, Stmt.fallsThrough, Stmt.drivesResult, Stmt.returnsLast]
    exact Sequential.describes_loop _ hbody
  | .forLoop init condition body step _, _, s => by
    have hbody := Block.describes body step (lowerStart init s.push).2.push
    have hround := hbody.append
      (describes_increment step
        (Block.lower step body (lowerStart init s.push).2.push).2.pop.naming)
    rw [Bool.and_false, Bool.or_false] at hround
    have hwhole := (describes_lowerStart init s.push).append (Sequential.describes_loop
      (condition.resolve (lowerStart init s.push).2.naming) hround)
    rw [Stmt.lower_forLoop, Stmt.fallsThrough, Stmt.drivesResult, Stmt.returnsLast]
    simpa using hwhole
  | .jump .leave _, _, s => by
    rw [Stmt.lower, Stmt.fallsThrough, Stmt.drivesResult, Stmt.returnsLast, Jump.lower]
    exact Sequential.describes_simple .exit (some .leave) fun _ _ => by rw [Sequential.Path]
  | .jump .again _, increment, s => by
    have hnext := Sequential.describes_simple .next (some .again) fun _ _ => by
      rw [Sequential.Path]
    rw [Stmt.lower, Stmt.fallsThrough, Stmt.drivesResult, Stmt.returnsLast, Jump.lower]
    exact (describes_increment increment s.naming).append hnext

theorem Alternative.describes : ∀ (a : Alternative) (increment : Option Assignment) (s : Lowering),
    Describes (a.lower increment s).1.Path a.fallsThrough a.drivesResult a.returnsLast
  | .none, _, s => by
    have hpath : Elsewise.Path .none = Sequential.Paths [] := by
      funext trace jump
      rw [Elsewise.Path, Sequential.Paths]
    rw [Alternative.lower, Alternative.fallsThrough, Alternative.drivesResult,
      Alternative.returnsLast, hpath]
    exact Describes.nil
  | .body body, increment, s => by
    have hbody := Block.describes body increment s.push
    have hpath : Elsewise.Path (.body (Block.lower increment body s.push).1) =
        Sequential.Paths (Block.lower increment body s.push).1 := by
      funext trace jump
      rw [Elsewise.Path]
    rw [Alternative.lower, Alternative.fallsThrough, Alternative.drivesResult,
      Alternative.returnsLast, hpath]
    exact hbody
  | .branch condition body otherwise _, increment, s => by
    have hbody := Block.describes body increment s.push
    have hother := Alternative.describes otherwise increment
      (Block.lower increment body s.push).2.pop
    have hpath : ∀ body' otherwise', Elsewise.Path (.branch (condition.resolve s.naming) body'
        otherwise') = fun trace jump => Sequential.Paths body' trace jump ∨
          otherwise'.Path trace jump := by
      intro body' otherwise'
      funext trace jump
      rw [Elsewise.Path]
    rw [Alternative.lower, Alternative.fallsThrough, Alternative.drivesResult,
      Alternative.returnsLast, hpath]
    exact hbody.or hother

theorem Block.describes : ∀ (ss : List Stmt) (increment : Option Assignment) (s : Lowering),
    Describes (Sequential.Paths (Block.lower increment ss s).1) (Block.fallsThrough ss)
      (Block.drivesResult ss) (Block.returnsLast ss)
  | [], _, s => by
    rw [Block.lower, Block.fallsThrough, Block.drivesResult, Block.returnsLast]
    exact Describes.nil
  | stmt :: ss, increment, s => by
    have hfirst := Stmt.describes stmt increment s
    have hrest := Block.describes ss increment (stmt.lower increment s).2
    have hboth := hfirst.append hrest
    rw [Block.isEmpty_lower] at hboth
    rw [Block.lower, Block.fallsThrough, Block.drivesResult, Block.returnsLast]
    exact hboth

end

/-- **A `return` ends every path where nothing follows it, and only there.** On every path through
the process of a function nothing is carried out after a result has been driven, which is then
driven once at most, if and only if the statements of the function have nothing to do behind a
`return`. -/
theorem Function.returnsLast_iff (f : Function) :
    (∀ trace jump, Sequential.Paths f.process.body trace jump →
      ReturnsLast trace ∧ trace.countP Sequential.isResult ≤ 1) ↔
    Block.returnsLast f.body = true := by
  have hbody := Block.describes f.body none ⟨(Naming.ofFunction f).push, 0⟩
  rw [← hbody.last_iff]
  constructor
  · intro h trace jump hpath
    exact (h trace jump hpath).1
  · intro h trace jump hpath
    have hlast := h trace jump hpath
    exact ⟨hlast, hlast.countP_le_one⟩

/-- `int early(int c) { if (c) { return 1; } return 2; }` -/
def earlyReturn : Function :=
  let p : Position := ⟨1, 1⟩
  ⟨"early", .int, [⟨.int, "c"⟩],
    [.branch (.name "c") [.ret (some (.number "1")) p] .none p, .ret (some (.number "2")) p], p⟩

/-- A `return` in a branch does not end the path: where the function returns 1, the process drives 1
and then 2. -/
theorem earlyReturn_overwritten :
    (∃ trace, Sequential.Paths earlyReturn.process.body trace none ∧ ¬ ReturnsLast trace ∧
      trace.countP Sequential.isResult = 2) ∧
    earlyReturn.run Meaning.integers 0 (fun _ => 5) = .ok ⟨some 1, []⟩ ∧
    earlyReturn.process.tick Meaning.integers 0 (fun _ => 5) (fun _ => 0) =
      .ok [("result", 2), ("result", 1)] := by
  refine ⟨?_, rfl, rfl⟩
  have hresult : ∀ text, Sequential.Paths [.setResult "result" (.number text)]
      [.setResult "result" (.number text)] none := by
    intro text
    rw [Sequential.paths_singleton, Sequential.Path]
    exact ⟨rfl, rfl⟩
  have hbody : earlyReturn.process.body =
      [.branch (.name "c") [.setResult "result" (.number "1")] .none] ++
        [.setResult "result" (.number "2")] := rfl
  refine ⟨[.branch (.name "c") [.setResult "result" (.number "1")] .none,
    .setResult "result" (.number "1")] ++ [.setResult "result" (.number "2")], ?_, ?_, rfl⟩
  · rw [hbody, Sequential.paths_append]
    refine .inl ⟨_, _, rfl, ?_, hresult "2"⟩
    rw [Sequential.paths_singleton, Sequential.Path]
    exact ⟨_, rfl, .inl (hresult "1")⟩
  · intro h
    have hno := h.resultless_left (by simp) (.setResult "result" (.number "1")) (by simp)
    cases hno

end ClockedC
