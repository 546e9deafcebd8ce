import ClockedC.Proofs.RenamedText

/-!
# The next round of a loop

A `for` loop becomes a loop with its increment at the end of the body. A jump to the next round
passes over that end, so the increment is written a second time in front of the jump. The names in
it are resolved where the jump is, though. This file compares the two.

* `Sequential.loopBodiesOfList` lists the bodies of the loops of some statements, and
  `Sequential.leadsOfList` what stands in front of each jump to the next round of the loop around
  them.
* `Block.loops` lists the loops of a body of a function, and `Block.continues` the jumps to the next
  round of the loop around a body.
* `Block.loopBodies_lexical` and `Block.leads_lexical` say what these become.
* `Env.Within` relates what names stand for at a jump and at the start of the body of its loop.
* `Function.advances_iff`: every jump has the increment of its own loop in front of it and nothing
  else that is not in the source. It is the line at the end of the body if and only if no scalar of
  the increment is declared anew inside of the body, where the jump is in its scope.
-/

namespace ClockedC

open Scan (Word)

/-! ## Loops and jumps of the process -/

mutual

/-- The bodies of the loops in a statement, each before those inside of it. -/
def Sequential.loopBodies : Sequential → List (List Sequential)
  | .branch _ body otherwise => Sequential.loopBodiesOfList body ++ otherwise.loopBodies
  | .loop _ body => body :: Sequential.loopBodiesOfList body
  | .setVariable .. | .setSignal .. | .setResult .. | .exit | .next => []

/-- The bodies of the loops in the part of a branch that runs where its condition fails. -/
def Elsewise.loopBodies : Elsewise → List (List Sequential)
  | .none => []
  | .body body => Sequential.loopBodiesOfList body
  | .branch _ body otherwise => Sequential.loopBodiesOfList body ++ otherwise.loopBodies

/-- The bodies of the loops in a list of statements. -/
def Sequential.loopBodiesOfList : List Sequential → List (List Sequential)
  | [] => []
  | s :: ss => s.loopBodies ++ Sequential.loopBodiesOfList ss

end

mutual

/-- For each jump to the next round of the loop around a statement, what stands in front of the jump
in its own list. The statements in front of the given one are `before`. A loop inside has rounds of
its own. -/
def Sequential.leads (before : List Sequential) : Sequential → List (List Sequential)
  | .next => [before]
  | .branch _ body otherwise => Sequential.leadsOfList [] body ++ otherwise.leads
  | .loop .. | .setVariable .. | .setSignal .. | .setResult .. | .exit => []

/-- What stands in front of the jumps in the part of a branch that runs where its condition
fails. -/
def Elsewise.leads : Elsewise → List (List Sequential)
  | .none => []
  | .body body => Sequential.leadsOfList [] body
  | .branch _ body otherwise => Sequential.leadsOfList [] body ++ otherwise.leads

/-- What stands in front of the jumps in a list of statements. -/
def Sequential.leadsOfList (before : List Sequential) : List Sequential → List (List Sequential)
  | [] => []
  | s :: ss => s.leads before ++ Sequential.leadsOfList (before ++ [s]) ss

end

namespace Sequential

theorem loopBodiesOfList_append (ss ss' : List Sequential) :
    loopBodiesOfList (ss ++ ss') = loopBodiesOfList ss ++ loopBodiesOfList ss' := by
  induction ss with
  | nil => rfl
  | cons s ss ih =>
    rw [List.cons_append, loopBodiesOfList, loopBodiesOfList, ih, List.append_assoc]

theorem leadsOfList_append (before ss ss' : List Sequential) :
    leadsOfList before (ss ++ ss') = leadsOfList before ss ++ leadsOfList (before ++ ss) ss' := by
  induction ss generalizing before with
  | nil => rw [List.nil_append, List.append_nil, leadsOfList, List.nil_append]
  | cons s ss ih =>
    rw [List.cons_append, leadsOfList, leadsOfList, ih, List.append_assoc, List.append_assoc,
      List.singleton_append]

/-- There are neither loops nor jumps to the next round in some statements. -/
structure Straight (ss : List Sequential) : Prop where
  loopBodies : loopBodiesOfList ss = []
  leads : ∀ before, leadsOfList before ss = []

theorem straight_nil : Straight [] :=
  ⟨rfl, fun _ => rfl⟩

theorem straight_set (holder : Holder) (value : Expr) : Straight [holder.set value] := by
  cases holder <;> exact ⟨rfl, fun _ => rfl⟩

end Sequential

open ClockedC.Sequential (Straight straight_nil straight_set)

namespace Scheme

variable (σ : Scheme) (env : Env)

theorem straight_assignment (a : Assignment) : Straight [σ.assignment env a] := by
  unfold assignment
  cases a.target with
  | name n => exact straight_set _ _
  | element base index text => exact ⟨rfl, fun _ => rfl⟩

theorem straight_increment (increment : Option Assignment) :
    Straight (increment.map (σ.assignment env)).toList := by
  cases increment with
  | none => exact straight_nil
  | some a => exact σ.straight_assignment env a

theorem straight_declaration (place : Nat) (d : Declaration) :
    Straight (σ.declaration env place d) := by
  unfold declaration
  cases d.form with
  | array size init => exact straight_nil
  | scalar init =>
    cases init with
    | none => exact straight_nil
    | some e => exact straight_set _ _

theorem straight_start (place : Nat) (init : Option ForStart) :
    Straight (σ.start env place init) := by
  cases init with
  | none => exact straight_nil
  | some init =>
    cases init with
    | declare d => exact σ.straight_declaration env place d
    | assign a => exact σ.straight_assignment env a

end Scheme

/-! ## Loops and jumps of a function -/

/-- A loop of a function: its increment, if it has one, what names stand for at the start of its
body, how many declarations come before the body, and the body. -/
structure LoopSite where
  increment : Option Assignment
  env : Env
  place : Nat
  body : List Stmt

mutual

/-- The loops in a statement, each before those inside of it. -/
def Stmt.loops (σ : Scheme) (env : Env) (place : Nat) : Stmt → List LoopSite
  | .branch _ body otherwise _ =>
    Block.loops σ env place body ++
      otherwise.loops σ env (place + (Block.declarations body).length)
  | .whileLoop _ body _ => ⟨none, env, place, body⟩ :: Block.loops σ env place body
  | .forLoop init _ body step _ =>
    let inner := σ.header env place init
    let first := place + ((init.map ForStart.declarations).getD []).length
    ⟨step, inner, first, body⟩ :: Block.loops σ inner first body
  | .declare _ | .assign _ | .ret .. | .jump .. => []

/-- The loops in an alternative. -/
def Alternative.loops (σ : Scheme) (env : Env) (place : Nat) : Alternative → List LoopSite
  | .none => []
  | .body body => Block.loops σ env place body
  | .branch _ body otherwise _ =>
    Block.loops σ env place body ++
      otherwise.loops σ env (place + (Block.declarations body).length)

/-- The loops in a body. -/
def Block.loops (σ : Scheme) (env : Env) (place : Nat) : List Stmt → List LoopSite
  | [] => []
  | stmt :: stmts =>
    stmt.loops σ env place ++
      Block.loops σ (σ.after env place stmt) (place + stmt.declarations.length) stmts

end

/-- What a statement declares for the statements behind it. -/
def Stmt.opens : Stmt → List Declaration
  | .declare d => [d]
  | .assign _ | .ret .. | .branch .. | .whileLoop .. | .forLoop .. | .jump .. => []

/-- A jump to the next round of a loop. -/
structure ContinueSite where
  /-- The declarations inside of the body of the loop that the jump is in the scope of. -/
  opened : List Declaration
  /-- What names stand for. -/
  env : Env
  /-- What the statements in front of the jump become. -/
  before : List Sequential

mutual

/-- The jumps in a statement to the next round of the loop around it, which has the given increment.
Declarations are `opened` from the start of the body of the loop on. -/
def Stmt.continues (σ : Scheme) (increment : Option Assignment) (env : Env) (place : Nat)
    (opened : List Declaration) (before : List Sequential) : Stmt → List ContinueSite
  | .jump .again _ => [⟨opened, env, before⟩]
  | .branch _ body otherwise _ =>
    Block.continues σ increment env place opened [] body ++
      otherwise.continues σ increment env (place + (Block.declarations body).length) opened
  | .jump .leave _ | .declare _ | .assign _ | .ret .. | .whileLoop .. | .forLoop .. => []

/-- The jumps in an alternative. -/
def Alternative.continues (σ : Scheme) (increment : Option Assignment) (env : Env) (place : Nat)
    (opened : List Declaration) : Alternative → List ContinueSite
  | .none => []
  | .body body => Block.continues σ increment env place opened [] body
  | .branch _ body otherwise _ =>
    Block.continues σ increment env place opened [] body ++
      otherwise.continues σ increment env (place + (Block.declarations body).length) opened

/-- The jumps in a body. -/
def Block.continues (σ : Scheme) (increment : Option Assignment) (env : Env) (place : Nat)
    (opened : List Declaration) (before : List Sequential) : List Stmt → List ContinueSite
  | [] => []
  | stmt :: stmts =>
    stmt.continues σ increment env place opened before ++
      Block.continues σ increment (σ.after env place stmt) (place + stmt.declarations.length)
        (opened ++ stmt.opens) (before ++ stmt.lexical σ increment env place) stmts

end

namespace LoopSite

variable (σ : Scheme) (l : LoopSite)

/-- The body of the loop in the process. The increment stands at its end. -/
def written : List Sequential :=
  Block.lexical σ l.increment l.env l.place l.body ++ (l.increment.map (σ.assignment l.env)).toList

/-- The jumps to the next round of the loop. -/
def continues : List ContinueSite :=
  Block.continues σ l.increment l.env l.place [] [] l.body

end LoopSite

/-- What stands in front of a jump in the process: what the source has in front of it, and the
increment. -/
def ContinueSite.lead (σ : Scheme) (increment : Option Assignment) (c : ContinueSite) :
    List Sequential :=
  c.before ++ (increment.map (σ.assignment c.env)).toList

/-! ## What they become -/

section Lexical

open ClockedC.Sequential

variable (σ : Scheme)

mutual

theorem Stmt.loopBodies_lexical : ∀ (stmt : Stmt) (increment : Option Assignment) (env : Env)
    (place : Nat), loopBodiesOfList (stmt.lexical σ increment env place) =
      (stmt.loops σ env place).map (LoopSite.written σ)
  | .declare d, _, env, place => (σ.straight_declaration env place d).loopBodies
  | .assign a, _, env, _ => (σ.straight_assignment env a).loopBodies
  | .ret none _, _, _, _ | .ret (some _) _, _, _, _ => rfl
  | .jump .leave _, _, _, _ => rfl
  | .jump .again _, increment, env, _ => by
    rw [Stmt.lexical, Scheme.jump, loopBodiesOfList_append,
      (σ.straight_increment env increment).loopBodies]
    rfl
  | .branch condition body otherwise _, increment, env, place => by
    rw [Stmt.lexical, Stmt.loops, List.map_append, ← Block.loopBodies_lexical body increment,
      ← Alternative.loopBodies_lexical otherwise increment]
    exact List.append_nil _
  | .whileLoop condition body _, _, env, place => by
    rw [Stmt.lexical, Stmt.loops, List.map_cons, ← Block.loopBodies_lexical body none,
      LoopSite.written, Option.map_none, Option.toList_none, List.append_nil]
    exact List.append_nil _
  | .forLoop init condition body step _, _, env, place => by
    rw [Stmt.lexical, Stmt.loops, List.map_cons, ← Block.loopBodies_lexical body step,
      loopBodiesOfList_append, (σ.straight_start env place init).loopBodies, List.nil_append,
      loopBodiesOfList, loopBodiesOfList, List.append_nil, Sequential.loopBodies,
      loopBodiesOfList_append, (σ.straight_increment _ step).loopBodies, List.append_nil]
    rfl

theorem Alternative.loopBodies_lexical : ∀ (a : Alternative) (increment : Option Assignment)
    (env : Env) (place : Nat), (a.lexical σ increment env place).loopBodies =
      (a.loops σ env place).map (LoopSite.written σ)
  | .none, _, _, _ => rfl
  | .body body, increment, env, place => Block.loopBodies_lexical body increment env place
  | .branch condition body otherwise _, increment, env, place => by
    rw [Alternative.lexical, Alternative.loops, List.map_append,
      ← Block.loopBodies_lexical body increment,
      ← Alternative.loopBodies_lexical otherwise increment]
    rfl

/-- The loops of a body become the loops of the process, in the same order. -/
theorem Block.loopBodies_lexical : ∀ (ss : List Stmt) (increment : Option Assignment) (env : Env)
    (place : Nat), loopBodiesOfList (Block.lexical σ increment env place ss) =
      (Block.loops σ env place ss).map (LoopSite.written σ)
  | [], _, _, _ => rfl
  | stmt :: ss, increment, env, place => by
    rw [Block.lexical, Block.loops, List.map_append, loopBodiesOfList_append,
      Stmt.loopBodies_lexical stmt, Block.loopBodies_lexical ss]

end

mutual

theorem Stmt.leads_lexical (increment : Option Assignment) : ∀ (stmt : Stmt) (env : Env)
    (place : Nat) (opened : List Declaration) (before : List Sequential),
    leadsOfList before (stmt.lexical σ increment env place) =
      (stmt.continues σ increment env place opened before).map (ContinueSite.lead σ increment)
  | .declare d, env, place, _, before => (σ.straight_declaration env place d).leads before
  | .assign a, env, _, _, before => (σ.straight_assignment env a).leads before
  | .ret none _, _, _, _, _ | .ret (some _) _, _, _, _, _ => rfl
  | .whileLoop .., _, _, _, _ => rfl
  | .forLoop init _ _ _ _, env, place, _, before => by
    rw [Stmt.lexical, leadsOfList_append, (σ.straight_start env place init).leads before]
    rfl
  | .jump .leave _, _, _, _, _ => rfl
  | .jump .again _, env, _, _, before => by
    rw [Stmt.lexical, Scheme.jump, leadsOfList_append, (σ.straight_increment env increment).leads]
    rfl
  | .branch condition body otherwise _, env, place, opened, before => by
    rw [Stmt.lexical, Stmt.continues, List.map_append,
      ← Block.leads_lexical increment body env place opened [],
      ← Alternative.leads_lexical increment otherwise]
    exact List.append_nil _

theorem Alternative.leads_lexical (increment : Option Assignment) : ∀ (a : Alternative) (env : Env)
    (place : Nat) (opened : List Declaration), (a.lexical σ increment env place).leads =
      (a.continues σ increment env place opened).map (ContinueSite.lead σ increment)
  | .none, _, _, _ => rfl
  | .body body, env, place, opened => Block.leads_lexical increment body env place opened []
  | .branch condition body otherwise _, env, place, opened => by
    rw [Alternative.lexical, Alternative.continues, List.map_append,
      ← Block.leads_lexical increment body env place opened [],
      ← Alternative.leads_lexical increment otherwise]
    rfl

/-- In front of each jump to the next round is what the source has in front of it, and the
increment. -/
theorem Block.leads_lexical (increment : Option Assignment) : ∀ (ss : List Stmt) (env : Env)
    (place : Nat) (opened : List Declaration) (before : List Sequential),
    leadsOfList before (Block.lexical σ increment env place ss) =
      (Block.continues σ increment env place opened before ss).map (ContinueSite.lead σ increment)
  | [], _, _, _, _ => rfl
  | stmt :: ss, env, place, opened, before => by
    rw [Block.lexical, Block.continues, List.map_append, leadsOfList_append,
      Stmt.leads_lexical increment stmt env place opened,
      Block.leads_lexical increment ss _ _ (opened ++ stmt.opens)]

end

theorem LoopSite.leads_written (l : LoopSite) :
    leadsOfList [] (l.written σ) = (l.continues σ).map (ContinueSite.lead σ l.increment) := by
  rw [written, leadsOfList_append, (σ.straight_increment l.env l.increment).leads, List.append_nil,
    Block.leads_lexical σ l.increment l.body l.env l.place []]
  rfl

end Lexical

/-! ## Names at a jump -/

theorem variableCount_append (ds ds' : List Declaration) (n : String) :
    variableCount (ds ++ ds') n = variableCount ds n + variableCount ds' n := by
  unfold variableCount
  rw [List.filter_append, List.map_append, List.count_append]

/-- A scalar counts for all later declarations of its name. -/
theorem variableCount_take_lt {ds : List Declaration} {d : Declaration} {i j : Nat}
    (hd : ds[i]? = some d) (hvariable : d.hasVariable = true) (hlt : i < j) :
    variableCount (ds.take i) d.name < variableCount (ds.take j) d.name := by
  obtain ⟨more, hmore⟩ : ds.take (i + 1) <+: ds.take j := List.take_prefix_take_left hlt
  have hone : variableCount [d] d.name = 1 := by
    rw [variableCount_cons, if_pos ⟨hvariable, rfl⟩]
    rfl
  rw [← hmore, List.take_add_one, hd, Option.toList_some, variableCount_append,
    variableCount_append, hone]
  omega

theorem variableName_ne_self (n : String) (ordinal : Nat) : variableName n ordinal ≠ n := by
  intro h
  have hlength := congrArg (List.length ∘ String.toList) h
  rw [Function.comp_apply, Function.comp_apply, toList_variableName_eq,
    List.length_append] at hlength
  unfold countFront countDigits at hlength
  split at hlength
  · have hpos : 0 < (Nat.toDigits 10 ordinal).length := Nat.length_toDigits_pos
    omega
  · rw [List.length_append, List.length_cons] at hlength
    omega

namespace Env

/-- Every name stands for a scalar of that name, which is one of the first `place` declarations of a
function. -/
def At (f : Function) (place : Nat) (env : Env) : Prop :=
  ∀ n p, env n = some p → p.place < place ∧ f.declarations[p.place]? = some p.declaration ∧
    p.declaration.name = n ∧ p.declaration.hasVariable = true

variable {f : Function} {env outer : Env} {place start : Nat} {opened : List Declaration}

namespace At

theorem empty (f : Function) (place : Nat) : Env.empty.At f place := by
  intro n p h
  cases h

theorem wellNamed (h : env.At f place) : env.WellNamed :=
  fun n p hp => (h n p hp).2.2.1

theorem mono (h : env.At f place) {place' : Nat} (hle : place ≤ place') : env.At f place' :=
  fun n p hp => ⟨Nat.lt_of_lt_of_le (h n p hp).1 hle, (h n p hp).2⟩

theorem enter (h : env.At f place) {d : Declaration} (hd : f.declarations[place]? = some d) :
    ((f.scheme Declaration.hasVariable).enter env d place).At f (place + 1) := by
  unfold Scheme.enter
  split
  · next hvariable =>
    intro n p hp
    unfold Env.declare at hp
    split at hp
    · next hn =>
      cases hp
      exact ⟨Nat.lt_succ_self place, hd, hn.symm, hvariable⟩
    · exact h.mono (Nat.le_succ place) n p hp
  · exact h.mono (Nat.le_succ place)

theorem header (h : env.At f place) {init : Option ForStart}
    (hd : f.Declares place ((init.map ForStart.declarations).getD [])) :
    ((f.scheme Declaration.hasVariable).header env place init).At f
      (place + ((init.map ForStart.declarations).getD []).length) := by
  cases init with
  | none => exact h
  | some init =>
    cases init with
    | assign a => exact h
    | declare d => exact h.enter (Function.Declares.getElem? hd)

theorem after (h : env.At f place) {stmt : Stmt} (hd : f.Declares place stmt.declarations) :
    ((f.scheme Declaration.hasVariable).after env place stmt).At f
      (place + stmt.declarations.length) := by
  cases stmt with
  | declare d =>
    rw [Stmt.declarations] at hd
    exact h.enter hd.getElem?
  | _ => exact h.mono (Nat.le_add_right _ _)

end At

/-- An environment inside of the body of a loop, with `place` declarations before it. At the start
of the body the environment was `outer` and there were `start` declarations before it. What has been
declared since then and is still in scope is `opened`. -/
structure Within (f : Function) (outer : Env) (start : Nat) (opened : List Declaration) (env : Env)
    (place : Nat) : Prop where
  known : env.At f place
  later : start ≤ place
  kept : ∀ n, (∀ d ∈ opened, d.hasVariable = true → d.name ≠ n) → env n = outer n
  hidden : ∀ d ∈ opened, d.hasVariable = true → ∃ p, env d.name = some p ∧ start ≤ p.place

namespace Within

theorem refl (h : outer.At f start) : Within f outer start [] outer start :=
  ⟨h, Nat.le_refl start, fun _ _ => rfl, List.forall_mem_nil _⟩

theorem mono (h : Within f outer start opened env place) {place' : Nat} (hle : place ≤ place') :
    Within f outer start opened env place' :=
  ⟨h.known.mono hle, Nat.le_trans h.later hle, h.kept, h.hidden⟩

theorem enter (h : Within f outer start opened env place) {d : Declaration}
    (hd : f.declarations[place]? = some d) :
    Within f outer start (opened ++ [d]) ((f.scheme Declaration.hasVariable).enter env d place)
      (place + 1) := by
  have hlater : start ≤ place + 1 := Nat.le_succ_of_le h.later
  refine ⟨h.known.enter hd, hlater, ?_, ?_⟩
  · intro n hn
    obtain ⟨hopened, hlast⟩ := List.forall_mem_append.1 hn
    have hother := List.forall_mem_singleton.1 hlast
    unfold Scheme.enter
    split
    · next hvariable =>
      rw [Env.declare, if_neg (hother hvariable).symm]
      exact h.kept n hopened
    · exact h.kept n hopened
  · intro d' hd' hvariable'
    unfold Scheme.enter
    split
    · next hvariable =>
      -- The newest declaration of a name hides the others.
      by_cases hname : d'.name = d.name
      · exact ⟨⟨d, place⟩, if_pos hname, h.later⟩
      · rw [Env.declare, if_neg hname]
        rcases List.mem_append.1 hd' with hmem | hmem
        · exact h.hidden d' hmem hvariable'
        · exact absurd (congrArg Declaration.name (List.mem_singleton.1 hmem)) hname
    · next hvariable =>
      rcases List.mem_append.1 hd' with hmem | hmem
      · exact h.hidden d' hmem hvariable'
      · rw [List.mem_singleton.1 hmem] at hvariable'
        exact absurd hvariable' hvariable

theorem after (h : Within f outer start opened env place) {stmt : Stmt}
    (hd : f.Declares place stmt.declarations) :
    Within f outer start (opened ++ stmt.opens)
      ((f.scheme Declaration.hasVariable).after env place stmt)
      (place + stmt.declarations.length) := by
  cases stmt with
  | declare d =>
    rw [Stmt.declarations] at hd
    exact h.enter hd.getElem?
  | _ =>
    rw [Stmt.opens, List.append_nil]
    exact h.mono (Nat.le_add_right _ _)

end Within

end Env

namespace Function

variable {f : Function} {env outer : Env} {place start : Nat}

/-- A name that is declared anew is held elsewhere. -/
theorem name_holderIn_ne_of_le (houter : outer.At f start) (henv : env.At f place) {n : String}
    {p : PlacedDeclaration} (hp : env n = some p) (hle : start ≤ p.place) :
    (f.holderIn env n).name ≠ (f.holderIn outer n).name := by
  have hname {env : Env} {place : Nat} (henv : env.At f place) {p : PlacedDeclaration}
      (hp : env n = some p) : (f.holderIn env n).name =
        variableName n (variableCount (f.declarations.take p.place) n) := by
    obtain ⟨-, -, rfl, hvariable⟩ := henv n p hp
    rw [holderIn, hp, Option.bind_some, variableFor, if_pos hvariable]
    rfl
  obtain ⟨-, -, hn, hvariable⟩ := henv n p hp
  rw [hname henv hp]
  -- Around the loop the name is that of a signal, or of an earlier declaration with a lower count.
  cases hq : outer n with
  | none =>
    have hplain : n ≠ outputName := by
      rintro rfl
      simp [Declaration.hasVariable, hn] at hvariable
    rw [holderIn, hq, Option.bind_none, Holder.name, if_neg hplain]
    exact variableName_ne_self n _
  | some q =>
    rw [hname houter hq]
    obtain ⟨hlt, hdeclared, hqn, hq'⟩ := houter n q hq
    have hcount := variableCount_take_lt hdeclared hq' (Nat.lt_of_lt_of_le hlt hle)
    rw [hqn] at hcount
    intro heq
    exact absurd (variableName_right_inj heq) (Nat.ne_of_gt hcount)

end Function

/-- No scalar in an assignment is declared anew between the start of the body of the loop and the
jump. -/
def ContinueSite.Keeps (c : ContinueSite) (a : Assignment) : Prop :=
  ∀ d ∈ c.opened, d.hasVariable = true → d.name ∉ a.scalars

instance (c : ContinueSite) (a : Assignment) : Decidable (c.Keeps a) :=
  inferInstanceAs (Decidable (∀ d ∈ c.opened, d.hasVariable = true → d.name ∉ a.scalars))

namespace Env.Within

variable {f : Function} {outer : Env} {start place : Nat} {a : Assignment} {c : ContinueSite}

theorem sameLine (h : Within f outer start c.opened c.env place) (hkeeps : c.Keeps a) :
    Sequential.SameLine ((f.scheme Declaration.hasVariable).assignment c.env a)
      ((f.scheme Declaration.hasVariable).assignment outer a) := by
  apply Scheme.sameLine_of_agree
  intro n hn
  have hsame : c.env n = outer n := by
    refine h.kept n fun d hd hvariable heq => hkeeps d hd hvariable ?_
    rw [heq]
    exact hn
  show f.holderIn c.env n = f.holderIn outer n
  rw [Function.holderIn, Function.holderIn, hsame]

theorem keeps_of_sameLine (h : Within f outer start c.opened c.env place)
    (houter : outer.At f start) (hspelled : a.move.WellSpelled)
    (hline : Sequential.SameLine ((f.scheme Declaration.hasVariable).assignment c.env a)
      ((f.scheme Declaration.hasVariable).assignment outer a)) : c.Keeps a := by
  intro d hd hvariable hmem
  obtain ⟨p, hp, hle⟩ := h.hidden d hd hvariable
  have hword {env : Env} (henv : env.WellNamed) (n : String) (hn : Word n.toList) :
      Word ((f.scheme Declaration.hasVariable).holder env n).name.toList :=
    Function.word_holderIn (f := f) henv n hn
  have hsame := Scheme.name_holder_eq_of_sameLine (hword h.known.wellNamed)
    (hword houter.wellNamed) hspelled hline d.name hmem
  exact Function.name_holderIn_ne_of_le houter h.known hp hle hsame

end Env.Within

/-! ## Loops and jumps of a body -/

mutual

theorem Stmt.within_of_mem_continues {f : Function} {outer : Env} {start : Nat}
    {increment : Option Assignment} {c : ContinueSite} :
    ∀ (stmt : Stmt) (env : Env) (place : Nat) (opened : List Declaration)
      (before : List Sequential), Env.Within f outer start opened env place →
      f.Declares place stmt.declarations →
      c ∈ stmt.continues (f.scheme Declaration.hasVariable) increment env place opened before →
      ∃ place', Env.Within f outer start c.opened c.env place'
  | .jump .again _, _, place, _, _, h, _, hc => by
    rw [List.mem_singleton.1 hc]
    exact ⟨place, h⟩
  | .branch _ body otherwise _, env, place, opened, _, h, hd, hc => by
    rw [Stmt.declarations] at hd
    obtain ⟨hbody, hotherwise⟩ := hd.append
    rcases List.mem_append.1 hc with hc | hc
    · exact Block.within_of_mem_continues body env place opened [] h hbody hc
    · -- What the body declares is out of scope behind it, but it counts for the place.
      exact Alternative.within_of_mem_continues otherwise env _ opened
        (h.mono (Nat.le_add_right _ _)) hotherwise hc
  | .jump .leave _, _, _, _, _, _, _, hc | .declare _, _, _, _, _, _, _, hc
  | .assign _, _, _, _, _, _, _, hc | .ret .., _, _, _, _, _, _, hc
  | .whileLoop .., _, _, _, _, _, _, hc | .forLoop .., _, _, _, _, _, _, hc =>
    absurd hc List.not_mem_nil

theorem Alternative.within_of_mem_continues {f : Function} {outer : Env} {start : Nat}
    {increment : Option Assignment} {c : ContinueSite} :
    ∀ (a : Alternative) (env : Env) (place : Nat) (opened : List Declaration),
      Env.Within f outer start opened env place → f.Declares place a.declarations →
      c ∈ a.continues (f.scheme Declaration.hasVariable) increment env place opened →
      ∃ place', Env.Within f outer start c.opened c.env place'
  | .none, _, _, _, _, _, hc => absurd hc List.not_mem_nil
  | .body body, env, place, opened, h, hd, hc => by
    rw [Alternative.declarations] at hd
    exact Block.within_of_mem_continues body env place opened [] h hd hc
  | .branch _ body otherwise _, env, place, opened, h, hd, hc => by
    rw [Alternative.declarations] at hd
    obtain ⟨hbody, hotherwise⟩ := hd.append
    rcases List.mem_append.1 hc with hc | hc
    · exact Block.within_of_mem_continues body env place opened [] h hbody hc
    · exact Alternative.within_of_mem_continues otherwise env _ opened
        (h.mono (Nat.le_add_right _ _)) hotherwise hc

/-- Every jump is within the body of its loop. -/
theorem Block.within_of_mem_continues {f : Function} {outer : Env} {start : Nat}
    {increment : Option Assignment} {c : ContinueSite} :
    ∀ (ss : List Stmt) (env : Env) (place : Nat) (opened : List Declaration)
      (before : List Sequential), Env.Within f outer start opened env place →
      f.Declares place (Block.declarations ss) →
      c ∈ Block.continues (f.scheme Declaration.hasVariable) increment env place opened before ss →
      ∃ place', Env.Within f outer start c.opened c.env place'
  | [], _, _, _, _, _, _, hc => absurd hc List.not_mem_nil
  | stmt :: ss, env, place, opened, before, h, hd, hc => by
    rw [Block.declarations] at hd
    obtain ⟨hfirst, hrest⟩ := hd.append
    rcases List.mem_append.1 hc with hc | hc
    · exact Stmt.within_of_mem_continues stmt env place opened before h hfirst hc
    · exact Block.within_of_mem_continues ss _ _ _ _ (h.after hfirst) hrest hc

end

/-- What is known of a loop of a function: names stand for scalars that are declared before its
body, and the increment is one of some given moves. -/
structure LoopSite.Sound (f : Function) (ms : List Move) (l : LoopSite) : Prop where
  known : l.env.At f l.place
  declares : f.Declares l.place (Block.declarations l.body)
  increment : ∀ a ∈ l.increment, a.move ∈ ms

theorem LoopSite.Sound.mono {f : Function} {ms ms' : List Move} {l : LoopSite}
    (h : l.Sound f ms) (hms : ms ⊆ ms') : l.Sound f ms' :=
  ⟨h.known, h.declares, fun a ha => hms (h.increment a ha)⟩

mutual

theorem Stmt.sound_of_mem_loops {f : Function} {l : LoopSite} :
    ∀ (stmt : Stmt) (env : Env) (place : Nat), env.At f place →
      f.Declares place stmt.declarations →
      l ∈ stmt.loops (f.scheme Declaration.hasVariable) env place → l.Sound f stmt.moves
  | .branch condition body otherwise _, env, place, h, hd, hl => by
    rw [Stmt.declarations] at hd
    obtain ⟨hbody, hotherwise⟩ := hd.append
    rw [Stmt.moves]
    rcases List.mem_append.1 hl with hl | hl
    · refine (Block.sound_of_mem_loops body env place h hbody hl).mono fun m hm => ?_
      exact List.mem_append_left _ (List.mem_cons_of_mem _ hm)
    · have hsound := Alternative.sound_of_mem_loops otherwise env _
        (h.mono (Nat.le_add_right _ _)) hotherwise hl
      exact hsound.mono (List.subset_append_right _ _)
  | .whileLoop condition body _, env, place, h, hd, hl => by
    rw [Stmt.declarations] at hd
    rw [Stmt.moves]
    rcases List.mem_cons.1 hl with rfl | hl
    · exact ⟨h, hd, fun a ha => by cases ha⟩
    · exact (Block.sound_of_mem_loops body env place h hd hl).mono (List.subset_cons_self _ _)
  | .forLoop init condition body step _, env, place, h, hd, hl => by
    rw [Stmt.declarations] at hd
    obtain ⟨hinit, hbody⟩ := hd.append
    have hinner := h.header hinit
    rw [Stmt.moves]
    rcases List.mem_cons.1 hl with rfl | hl
    · refine ⟨hinner, hbody, fun a ha => ?_⟩
      have hstep : step = some a := ha
      have hmove : a.move ∈ (step.map Assignment.move).toList := by
        rw [hstep]
        exact List.mem_singleton_self _
      exact List.mem_append_right _ (List.mem_cons_of_mem _ (List.mem_append_right _ hmove))
    · refine (Block.sound_of_mem_loops body _ _ hinner hbody hl).mono fun m hm => ?_
      exact List.mem_append_right _ (List.mem_cons_of_mem _ (List.mem_append_left _ hm))
  | .declare _, _, _, _, _, hl | .assign _, _, _, _, _, hl | .ret .., _, _, _, _, hl
  | .jump .., _, _, _, _, hl => absurd hl List.not_mem_nil

theorem Alternative.sound_of_mem_loops {f : Function} {l : LoopSite} :
    ∀ (a : Alternative) (env : Env) (place : Nat), env.At f place →
      f.Declares place a.declarations →
      l ∈ a.loops (f.scheme Declaration.hasVariable) env place → l.Sound f a.moves
  | .none, _, _, _, _, hl => absurd hl List.not_mem_nil
  | .body body, env, place, h, hd, hl => by
    rw [Alternative.declarations] at hd
    exact Block.sound_of_mem_loops body env place h hd hl
  | .branch condition body otherwise _, env, place, h, hd, hl => by
    rw [Alternative.declarations] at hd
    obtain ⟨hbody, hotherwise⟩ := hd.append
    rw [Alternative.moves]
    rcases List.mem_append.1 hl with hl | hl
    · refine (Block.sound_of_mem_loops body env place h hbody hl).mono fun m hm => ?_
      exact List.mem_append_left _ (List.mem_cons_of_mem _ hm)
    · have hsound := Alternative.sound_of_mem_loops otherwise env _
        (h.mono (Nat.le_add_right _ _)) hotherwise hl
      exact hsound.mono (List.subset_append_right _ _)

theorem Block.sound_of_mem_loops {f : Function} {l : LoopSite} :
    ∀ (ss : List Stmt) (env : Env) (place : Nat), env.At f place →
      f.Declares place (Block.declarations ss) →
      l ∈ Block.loops (f.scheme Declaration.hasVariable) env place ss →
      l.Sound f (Block.moves ss)
  | [], _, _, _, _, hl => absurd hl List.not_mem_nil
  | stmt :: ss, env, place, h, hd, hl => by
    rw [Block.declarations] at hd
    obtain ⟨hfirst, hrest⟩ := hd.append
    rw [Block.moves]
    rcases List.mem_append.1 hl with hl | hl
    · exact (Stmt.sound_of_mem_loops stmt env place h hfirst hl).mono
        (List.subset_append_left _ _)
    · exact (Block.sound_of_mem_loops ss _ _ (h.after hfirst) hrest hl).mono
        (List.subset_append_right _ _)

end

/-! ## Whole functions -/

namespace Function

/-- The loops of a function. -/
def loops (f : Function) : List LoopSite :=
  Block.loops (f.scheme Declaration.hasVariable) Env.empty 0 f.body

/-- A function of a source, before or after its calls are numbered. -/
def FromSource (f : Function) : Prop :=
  ∃ source program, ((Program.ofSource source).outcome = .ok program ∨
    (Program.prepare source).outcome = .ok program) ∧ f ∈ program.functions

theorem FromSource.wellSpelled {f : Function} (h : f.FromSource) : f.WellSpelled := by
  obtain ⟨source, program, hread | hprepared, hf⟩ := h
  · exact (Program.written_of_ofSource hread f hf).wellSpelled
  · exact Program.wellSpelled_of_prepare hprepared hf

variable {f : Function} {l : LoopSite}

theorem sound_of_mem_loops (h : l ∈ f.loops) : l.Sound f (Block.moves f.body) :=
  Block.sound_of_mem_loops f.body Env.empty 0 (Env.At.empty f 0) (List.prefix_refl _) h

theorem within_of_mem_continues (h : l ∈ f.loops) {c : ContinueSite}
    (hc : c ∈ l.continues (f.scheme Declaration.hasVariable)) :
    ∃ place, Env.Within f l.env l.place c.opened c.env place := by
  have hsound := sound_of_mem_loops h
  exact Block.within_of_mem_continues l.body l.env l.place [] [] (.refl hsound.known)
    hsound.declares hc

/-- **When a jump to the next round advances its loop.** The loops of the process are those of the
function, with the increment at the end of the body. In front of each jump to the next round is what
the source has in front of it and then the increment of the innermost loop, if that has one. The
increment is the line at the end of the body, apart from indentation, where no scalar of it is
declared anew inside of the body with the jump in its scope. In a function of a source it is not
that line where one is. -/
theorem advances_iff (f : Function) :
    let σ := f.scheme Declaration.hasVariable
    Sequential.loopBodiesOfList f.process.body = f.loops.map (LoopSite.written σ) ∧
    ∀ l ∈ f.loops,
      Sequential.leadsOfList [] (l.written σ) =
        (l.continues σ).map (ContinueSite.lead σ l.increment) ∧
      ∀ a ∈ l.increment, ∀ c ∈ l.continues σ,
        (c.Keeps a → Sequential.SameLine (σ.assignment c.env a) (σ.assignment l.env a)) ∧
        (f.FromSource → Sequential.SameLine (σ.assignment c.env a) (σ.assignment l.env a) →
          c.Keeps a) := by
  intro σ
  refine ⟨?_, fun l hl => ⟨l.leads_written σ, fun a ha c hc => ?_⟩⟩
  · rw [body_process f.fits_hasVariable]
    exact Block.loopBodies_lexical σ f.body none Env.empty 0
  · obtain ⟨place, hwithin⟩ := within_of_mem_continues hl hc
    have hsound := sound_of_mem_loops hl
    refine ⟨hwithin.sameLine, fun hsource => hwithin.keeps_of_sameLine hsound.known ?_⟩
    exact hsource.wellSpelled.moves _ (hsound.increment a ha)

end Function

/-- The first loop has an increment, which stands in front of the jump inside of the branch and at
the end of the body. The second loop has none. -/
theorem advances_iff_two_loops :
    let step : Assignment := ⟨.name "n", .binary .add (.name "n") (.number "1"), ⟨1, 26⟩⟩
    let f : Function := ⟨"f", .int, [⟨.int, "n"⟩],
      [.forLoop none (.name "n")
          [.declare ⟨"k", .int, .scalar (some (.number "1")), ⟨1, 33⟩⟩,
            .branch (.name "k") [.jump .again ⟨1, 53⟩] .none ⟨1, 44⟩] (some step) ⟨1, 16⟩,
        .whileLoop (.name "n") [.jump .again ⟨1, 79⟩] ⟨1, 67⟩], ⟨1, 5⟩⟩
    let σ := f.scheme Declaration.hasVariable
    f.FromSource ∧
    Sequential.linesOfList 0 f.process.body =
      ["while unsigned(n) /= 0 loop",
        "  k_v := 1;",
        "  if unsigned(k_v) /= 0 then",
        "    n <= n + 1;",
        "    next;",
        "  end if;",
        "  n <= n + 1;",
        "end loop;",
        "while unsigned(n) /= 0 loop",
        "  next;",
        "end loop;"] ∧
    ∃ l ∈ f.loops, step ∈ l.increment ∧ ∃ c ∈ l.continues σ, c.Keeps step ∧
      (c.Keeps step ↔
        Sequential.SameLine (σ.assignment c.env step) (σ.assignment l.env step)) := by
  intro step f σ
  have hprepare : (Program.prepare
      "int f(int n) { for (; n; n++) { int k = 1; if (k) { continue; } } while (n) { continue; } }"
      ).outcome = .ok ⟨[f]⟩ :=
    Program.outcome_prepare_eq_ok.2 ⟨⟨[f]⟩, by with_unfolding_all rfl, rfl⟩
  have hsource : f.FromSource := ⟨_, _, .inr hprepare, List.mem_singleton_self f⟩
  refine ⟨hsource, by decide, _, List.mem_cons_self, rfl, _, List.mem_cons_self, by decide, ?_⟩
  have hjump := ((Function.advances_iff f).2 _ List.mem_cons_self).2 step rfl _ List.mem_cons_self
  exact ⟨hjump.1, hjump.2 hsource⟩

/-- A jump may fail to advance its loop: the body declares an `i` of its own, and the increment in
front of the jump is applied to that one. -/
theorem increment_of_inner_local :
    let i (init : Expr) (column : Nat) : Declaration :=
      ⟨"i", .int, .scalar (some init), ⟨1, column⟩⟩
    let step : Assignment := ⟨.name "i", .binary .add (.name "i") (.number "1"), ⟨1, 39⟩⟩
    let f : Function := ⟨"f", .int, [⟨.int, "n"⟩],
      [.forLoop (some (.declare (i (.number "0") 21))) (.binary .lt (.name "i") (.name "n"))
          [.declare (i (.number "5") 46), .jump .again ⟨1, 57⟩] (some step) ⟨1, 16⟩,
        .ret (some (.name "n")) ⟨1, 69⟩], ⟨1, 5⟩⟩
    let σ := f.scheme Declaration.hasVariable
    (Program.prepare
      "int f(int n) { for (int i = 0; i < n; i++) { int i = 5; continue; } return n; }"
      ).outcome = .ok ⟨[f]⟩ ∧
    Sequential.linesOfList 0 f.process.body =
      ["i_v := 0;",
        "while unsigned(i_v) < unsigned(n) loop",
        "  i_v1 := 5;",
        "  i_v1 := i_v1 + 1;",
        "  next;",
        "  i_v := i_v + 1;",
        "end loop;",
        "result <= n;"] ∧
    ∃ l ∈ f.loops, l.increment = some step ∧ ∃ c ∈ l.continues σ,
      ¬ Sequential.SameLine (σ.assignment c.env step) (σ.assignment l.env step) := by
  intro i step f σ
  have hprepare : (Program.prepare
      "int f(int n) { for (int i = 0; i < n; i++) { int i = 5; continue; } return n; }"
      ).outcome = .ok ⟨[f]⟩ :=
    Program.outcome_prepare_eq_ok.2 ⟨⟨[f]⟩, by with_unfolding_all rfl, rfl⟩
  refine ⟨hprepare, by decide, _, List.mem_cons_self, rfl, _, List.mem_cons_self, ?_⟩
  rintro ⟨text, htext⟩
  have hlines := (htext 0).1.trans (htext 0).2.symm
  exact absurd hlines (by decide)

end ClockedC
