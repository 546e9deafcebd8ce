import ClockedC.Proofs.LexicalScope

/-!
# What a body does, move by move

The statements of a body give values to targets, give results and look at conditions. In the process
each of these moves is made with its names replaced by what holds their values. This file lists the
moves of a body and of the process and compares the two lists.

* `Block.moves` lists the moves of a body in the order of the source, and
  `Sequential.movesOfList` those of sequential statements.
* `Block.flatMap_moves`: the expressions of the moves are the expressions of the body.
* `Move.Becomes` says that a move of a body has become a move of the process.
* `Function.moves_process`: the moves of a process are those of the body, in this sense.
* `Process.moves_clocked`: what else is done on each tick.
-/

namespace ClockedC

/-- Something that statements do. A result is given to a signal. -/
inductive Move where
  | set (target : Target) (value : Expr)
  | result (signal : String) (value : Expr)
  | test (condition : Expr)

/-- The expressions of a move. -/
def Move.expressions : Move → List Expr
  | set target value => target.expressions ++ [value]
  | result _ value => [value]
  | test condition => [condition]

/-! ## Moves of a body -/

/-- A scalar is set to its initial value. -/
def Declaration.moves (d : Declaration) : List Move :=
  match d.form with
  | .scalar init => (init.map (Move.set (.name d.name))).toList
  | .array .. => []

/-- What an assignment does. -/
def Assignment.move (a : Assignment) : Move :=
  .set a.target a.value

/-- The moves before the first round of a `for` loop. -/
def ForStart.moves : ForStart → List Move
  | declare d => d.moves
  | assign a => [a.move]

mutual

/-- The moves of a statement. -/
def Stmt.moves : Stmt → List Move
  | .declare d => d.moves
  | .assign a => [a.move]
  | .ret value _ => (value.map (Move.result outputName)).toList
  | .branch condition body otherwise _ =>
    .test condition :: Block.moves body ++ otherwise.moves
  | .whileLoop condition body _ => .test condition :: Block.moves body
  | .forLoop init condition body increment _ =>
    (init.map ForStart.moves).getD [] ++
      (.test condition :: (Block.moves body ++ (increment.map Assignment.move).toList))
  | .jump .. => []

/-- The moves of an alternative. -/
def Alternative.moves : Alternative → List Move
  | .none => []
  | .body body => Block.moves body
  | .branch condition body otherwise _ =>
    .test condition :: Block.moves body ++ otherwise.moves

/-- The moves of a body. -/
def Block.moves : List Stmt → List Move
  | [] => []
  | s :: ss => s.moves ++ Block.moves ss

end

theorem Declaration.flatMap_moves (d : Declaration) :
    d.moves.flatMap Move.expressions = d.expressions := by
  unfold moves expressions
  cases d.form with
  | scalar init => cases init <;> rfl
  | array size init => rfl

theorem ForStart.flatMap_moves (init : Option ForStart) :
    ((init.map moves).getD []).flatMap Move.expressions = (init.map expressions).getD [] := by
  cases init with
  | none => rfl
  | some start =>
    cases start with
    | declare d => exact d.flatMap_moves
    | assign a => exact List.append_nil _

theorem Assignment.flatMap_moves (increment : Option Assignment) :
    (increment.map move).toList.flatMap Move.expressions =
      (increment.map expressions).getD [] := by
  cases increment with
  | none => rfl
  | some a => exact List.append_nil _

mutual

theorem Stmt.flatMap_moves : ∀ s : Stmt, s.moves.flatMap Move.expressions = s.expressions
  | .declare d => d.flatMap_moves
  | .assign _ => List.append_nil _
  | .ret none _ | .ret (some _) _ | .jump .. => rfl
  | .branch condition body otherwise _ => by
    rw [Stmt.moves, Stmt.expressions, List.flatMap_append, List.flatMap_cons,
      Block.flatMap_moves body, Alternative.flatMap_moves otherwise]
    rfl
  | .whileLoop condition body _ => by
    rw [Stmt.moves, Stmt.expressions, List.flatMap_cons, Block.flatMap_moves body]
    rfl
  | .forLoop init condition body increment _ => by
    rw [Stmt.moves, Stmt.expressions, List.flatMap_append, List.flatMap_cons, List.flatMap_append,
      Block.flatMap_moves body, ForStart.flatMap_moves, Assignment.flatMap_moves, List.append_assoc]
    rfl

theorem Alternative.flatMap_moves :
    ∀ a : Alternative, a.moves.flatMap Move.expressions = a.expressions
  | .none => rfl
  | .body body => Block.flatMap_moves body
  | .branch condition body otherwise _ => by
    rw [Alternative.moves, Alternative.expressions, List.flatMap_append, List.flatMap_cons,
      Block.flatMap_moves body, Alternative.flatMap_moves otherwise]
    rfl

/-- The expressions of the moves are the expressions of the body. -/
theorem Block.flatMap_moves :
    ∀ ss : List Stmt, (Block.moves ss).flatMap Move.expressions = Block.expressions ss
  | [] => rfl
  | s :: ss => by
    rw [Block.moves, Block.expressions, List.flatMap_append, Stmt.flatMap_moves s,
      Block.flatMap_moves ss]

end

/-! ## Moves of sequential statements -/

mutual

/-- The moves of a sequential statement. -/
def Sequential.moves : Sequential → List Move
  | .setVariable name value => [.set (.name name) value]
  | .setSignal target value => [.set target value]
  | .setResult signal value => [.result signal value]
  | .branch condition body otherwise =>
    .test condition :: Sequential.movesOfList body ++ otherwise.moves
  | .loop condition body => .test condition :: Sequential.movesOfList body
  | .exit | .next => []

/-- The moves of the part of a branch that runs where its condition fails. -/
def Elsewise.moves : Elsewise → List Move
  | .none => []
  | .body body => Sequential.movesOfList body
  | .branch condition body otherwise =>
    .test condition :: Sequential.movesOfList body ++ otherwise.moves

/-- The moves of a list of statements. -/
def Sequential.movesOfList : List Sequential → List Move
  | [] => []
  | s :: ss => s.moves ++ Sequential.movesOfList ss

end

theorem Sequential.movesOfList_append (ss ss' : List Sequential) :
    movesOfList (ss ++ ss') = movesOfList ss ++ movesOfList ss' := by
  induction ss with
  | nil => rfl
  | cons s ss ih => rw [List.cons_append, movesOfList, movesOfList, ih, List.append_assoc]

theorem Sequential.movesOfList_singleton (s : Sequential) : movesOfList [s] = s.moves :=
  List.append_nil _

/-! ## Moves in an environment -/

namespace Move

/-- A move in terms of what holds the values of names. The initial value of a local is found before
the name is declared, so a target has an environment of its own. -/
def lower (σ : Scheme) (env target : Env) : Move → Move
  | set (.name n) value => set (.name (σ.holder target n).name) (σ.expr env value)
  | set (.element base index text) value =>
    set (.element base (σ.expr env index) text) (σ.expr env value)
  | result _ value => result σ.result (σ.expr env value)
  | test condition => test (σ.expr env condition)

/-- A move of a body has become a move of the process, in some environment. -/
def Becomes (σ : Scheme) (m m' : Move) : Prop :=
  ∃ env target : Env, env.WellNamed ∧ target.WellNamed ∧ m' = m.lower σ env target

/-- Some moves of a body have become moves of the process. Each move of the process comes from one
of the moves, or from one of the `extra` ones of a loop around the body. -/
structure Become (σ : Scheme) (extra ms ms' : List Move) : Prop where
  sound : ∀ m' ∈ ms', ∃ m ∈ ms ++ extra, m.Becomes σ m'
  complete : ∀ m ∈ ms, ∃ m' ∈ ms', m.Becomes σ m'

namespace Become

variable {σ : Scheme} {extra extra' ms ms' ns ns' : List Move} {m m' : Move}

theorem nil : Become σ extra [] [] :=
  ⟨List.forall_mem_nil _, List.forall_mem_nil _⟩

theorem append (h : Become σ extra ms ms') (h' : Become σ extra ns ns') :
    Become σ extra (ms ++ ns) (ms' ++ ns') := by
  refine ⟨List.forall_mem_append.2 ⟨?_, ?_⟩, List.forall_mem_append.2 ⟨?_, ?_⟩⟩
  · intro m' hm'
    obtain ⟨m, hm, hbecomes⟩ := h.sound m' hm'
    exact ⟨m, by grind, hbecomes⟩
  · intro m' hm'
    obtain ⟨m, hm, hbecomes⟩ := h'.sound m' hm'
    exact ⟨m, by grind, hbecomes⟩
  · intro m hm
    obtain ⟨m', hm', hbecomes⟩ := h.complete m hm
    exact ⟨m', List.mem_append_left _ hm', hbecomes⟩
  · intro m hm
    obtain ⟨m', hm', hbecomes⟩ := h'.complete m hm
    exact ⟨m', List.mem_append_right _ hm', hbecomes⟩

theorem single (h : m.Becomes σ m') : Become σ extra [m] [m'] := by
  refine ⟨List.forall_mem_singleton.2 ⟨m, ?_, h⟩, List.forall_mem_singleton.2 ⟨m', ?_, h⟩⟩
  · exact List.mem_cons_self
  · exact List.mem_singleton_self m'

theorem cons (h : m.Becomes σ m') (h' : Become σ extra ms ms') :
    Become σ extra (m :: ms) (m' :: ms') :=
  (single h).append h'

/-- The extra moves may be among those of the body. -/
theorem absorb (h : Become σ extra ms ms') (hextra : ∀ m ∈ extra, m ∈ ms) :
    Become σ extra' ms ms' := by
  refine ⟨?_, h.complete⟩
  intro m' hm'
  obtain ⟨m, hm, hbecomes⟩ := h.sound m' hm'
  have hmem : m ∈ ms := (List.mem_append.1 hm).elim id (hextra m)
  exact ⟨m, List.mem_append_left _ hmem, hbecomes⟩

theorem extraOnly (h : Become σ [] extra ms') : Become σ extra [] ms' := by
  refine ⟨?_, List.forall_mem_nil _⟩
  intro m' hm'
  obtain ⟨m, hm, hbecomes⟩ := h.sound m' hm'
  rw [List.append_nil] at hm
  exact ⟨m, hm, hbecomes⟩

end Become

end Move

open Move (Become)

/-! ## Moves of the process -/

theorem Holder.moves_set (holder : Holder) (value : Expr) :
    (holder.set value).moves = [.set (.name holder.name) value] := by
  cases holder <;> rfl

namespace Scheme

variable (σ : Scheme) {env : Env} (henv : env.WellNamed)
include henv

theorem wellNamed_enter (d : Declaration) (place : Nat) : (σ.enter env d place).WellNamed := by
  unfold enter
  split
  · exact henv.declare d place
  · exact henv

theorem wellNamed_header (place : Nat) (init : Option ForStart) :
    (σ.header env place init).WellNamed := by
  cases init with
  | none => exact henv
  | some start =>
    cases start with
    | declare d => exact σ.wellNamed_enter henv d place
    | assign a => exact henv

theorem wellNamed_after (place : Nat) (s : Stmt) : (σ.after env place s).WellNamed := by
  cases s with
  | declare d => exact σ.wellNamed_enter henv d place
  | _ => exact henv

theorem becomes_test (e : Expr) : (Move.test e).Becomes σ (.test (σ.expr env e)) :=
  ⟨env, env, henv, henv, rfl⟩

theorem become_assignment (extra : List Move) (a : Assignment) :
    Become σ extra [a.move] (σ.assignment env a).moves := by
  obtain ⟨target, value, position⟩ := a
  cases target with
  | name n =>
    have hmoves := (σ.holder env n).moves_set (σ.expr env value)
    unfold assignment
    dsimp only
    rw [hmoves]
    exact .single ⟨env, env, henv, henv, rfl⟩
  | element base index text => exact .single ⟨env, env, henv, henv, rfl⟩

theorem become_increment (extra : List Move) (a : Option Assignment) :
    Become σ extra (a.map Assignment.move).toList
      (Sequential.movesOfList (a.map (σ.assignment env)).toList) := by
  cases a with
  | none => exact .nil
  | some a =>
    have h := σ.become_assignment henv extra a
    rwa [← Sequential.movesOfList_singleton] at h

theorem become_declaration (extra : List Move) (place : Nat) (d : Declaration) :
    Become σ extra d.moves (Sequential.movesOfList (σ.declaration env place d)) := by
  unfold Declaration.moves declaration
  cases d.form with
  | array size init => exact .nil
  | scalar init =>
    cases init with
    | none => exact .nil
    | some e =>
      have htarget := σ.wellNamed_enter henv d place
      have hmoves := (σ.holder (σ.enter env d place) d.name).moves_set (σ.expr env e)
      rw [← Sequential.movesOfList_singleton] at hmoves
      dsimp only [Option.map_some, Option.toList_some]
      rw [hmoves]
      exact .single ⟨env, σ.enter env d place, henv, htarget, rfl⟩

theorem become_start (extra : List Move) (place : Nat) (init : Option ForStart) :
    Become σ extra ((init.map ForStart.moves).getD [])
      (Sequential.movesOfList (σ.start env place init)) := by
  cases init with
  | none => exact .nil
  | some start =>
    cases start with
    | declare d => exact σ.become_declaration henv extra place d
    | assign a => exact σ.become_increment henv extra (some a)

/-- A jump to the next round makes the moves of the increment of the loop. -/
theorem become_jump (increment : Option Assignment) (j : Jump) :
    Become σ (increment.map Assignment.move).toList []
      (Sequential.movesOfList (σ.jump increment env j)) := by
  cases j with
  | leave => exact .nil
  | again =>
    have hnext : Sequential.movesOfList [.next] = [] := rfl
    rw [jump, Sequential.movesOfList_append, hnext, List.append_nil]
    exact (σ.become_increment henv [] increment).extraOnly

end Scheme

mutual

theorem Stmt.become_lexical (σ : Scheme) : ∀ (s : Stmt) (increment : Option Assignment) (env : Env)
    (place : Nat), env.WellNamed →
    Become σ (increment.map Assignment.move).toList s.moves
      (Sequential.movesOfList (s.lexical σ increment env place))
  | .declare d, increment, env, place, henv => σ.become_declaration henv _ place d
  | .assign a, increment, env, place, henv => σ.become_increment henv _ (some a)
  | .ret none _, increment, env, place, henv => .nil
  | .ret (some e) _, increment, env, place, henv => .single ⟨env, env, henv, henv, rfl⟩
  | .branch condition body otherwise _, increment, env, place, henv => by
    rw [Stmt.moves, Stmt.lexical, Sequential.movesOfList_singleton, Sequential.moves]
    exact .cons (σ.becomes_test henv condition)
      ((Block.become_lexical σ body increment env place henv).append
        (Alternative.become_lexical σ otherwise increment env _ henv))
  | .whileLoop condition body _, increment, env, place, henv => by
    have hbody : Become σ [] (Block.moves body) _ :=
      Block.become_lexical σ body none env place henv
    rw [Stmt.moves, Stmt.lexical, Sequential.movesOfList_singleton, Sequential.moves]
    exact .cons (σ.becomes_test henv condition) (hbody.absorb (List.forall_mem_nil _))
  | .forLoop init condition body step _, increment, env, place, henv => by
    have hinner := σ.wellNamed_header henv place init
    have hbody := (Block.become_lexical σ body step (σ.header env place init)
      (place + ((init.map ForStart.declarations).getD []).length) hinner).append
      (σ.become_increment hinner _ step)
    rw [Stmt.moves, Stmt.lexical, Sequential.movesOfList_append, Sequential.movesOfList_singleton,
      Sequential.moves, Sequential.movesOfList_append]
    refine (σ.become_start henv _ place init).append ?_
    refine .cons (σ.becomes_test hinner condition) (hbody.absorb ?_)
    intro m hm
    exact List.mem_append_right _ hm
  | .jump j _, increment, env, place, henv => σ.become_jump henv increment j

theorem Alternative.become_lexical (σ : Scheme) : ∀ (a : Alternative)
    (increment : Option Assignment) (env : Env) (place : Nat), env.WellNamed →
    Become σ (increment.map Assignment.move).toList a.moves
      (a.lexical σ increment env place).moves
  | .none, increment, env, place, henv => .nil
  | .body body, increment, env, place, henv =>
    Block.become_lexical σ body increment env place henv
  | .branch condition body otherwise _, increment, env, place, henv => by
    rw [Alternative.moves, Alternative.lexical, Elsewise.moves]
    exact .cons (σ.becomes_test henv condition)
      ((Block.become_lexical σ body increment env place henv).append
        (Alternative.become_lexical σ otherwise increment env _ henv))

theorem Block.become_lexical (σ : Scheme) : ∀ (ss : List Stmt) (increment : Option Assignment)
    (env : Env) (place : Nat), env.WellNamed →
    Become σ (increment.map Assignment.move).toList (Block.moves ss)
      (Sequential.movesOfList (Block.lexical σ increment env place ss))
  | [], increment, env, place, henv => .nil
  | s :: ss, increment, env, place, henv => by
    rw [Block.moves, Block.lexical, Sequential.movesOfList_append]
    exact (Stmt.become_lexical σ s increment env place henv).append
      (Block.become_lexical σ ss increment _ _ (σ.wellNamed_after henv place s))

end

/-- The moves of a process are those of the body, with names replaced by what holds their values. -/
theorem Function.moves_process (f : Function) :
    Become (f.scheme Declaration.hasVariable) [] (Block.moves f.body)
      (Sequential.movesOfList f.process.body) := by
  rw [Function.body_process f.fits_hasVariable]
  exact Block.become_lexical _ f.body none Env.empty 0 Env.wellNamed_empty

/-- On each tick the variables are set before the body runs, and the signals behind it. -/
theorem Process.moves_clocked (p : Process) :
    Sequential.movesOfList p.clocked =
      (p.locals.map fun v => .set (.name v.name) (.name v.source)) ++
        Sequential.movesOfList p.body ++
        (p.locals.reverse.filter ProcessVariable.isWrittenBack).map fun v =>
          .set (.name v.source) (.name v.name) := by
  have hcopyIn (vs : List ProcessVariable) :
      Sequential.movesOfList (vs.map ProcessVariable.copyIn) =
        vs.map fun v => .set (.name v.name) (.name v.source) := by
    induction vs with
    | nil => rfl
    | cons v vs ih => exact congrArg (_ :: ·) ih
  have hcopyOut (vs : List ProcessVariable) :
      Sequential.movesOfList (vs.filterMap ProcessVariable.copyOut?) =
        (vs.filter ProcessVariable.isWrittenBack).map fun v =>
          .set (.name v.source) (.name v.name) := by
    induction vs with
    | nil => rfl
    | cons v vs ih =>
      rw [List.filterMap_cons, ProcessVariable.copyOut?, List.filter_cons]
      cases v.isWrittenBack with
      | false => exact ih
      | true => exact congrArg (_ :: ·) ih
  rw [Process.clocked, Sequential.movesOfList_append, Sequential.movesOfList_append, hcopyIn,
    hcopyOut]

end ClockedC
