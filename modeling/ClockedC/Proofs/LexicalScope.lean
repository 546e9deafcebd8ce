import ClockedC.Proofs.ConstantIndices
import ClockedC.Proofs.NameClashes
import ClockedC.Proofs.Scopes

/-!
# Lexical scope

What a name stands for can be told from where it is written. A declaration holds from behind itself
to the end of its body, and inside of the bodies nested there. A `for` loop has a scope around its
body for what its header declares. This file lowers the statements of a function with the meaning of
names handed down as an environment, and compares that with the scopes that are opened and closed
along the way.

* `Env` says which declaration a name stands for. A declaration is told from others of its name by
  its place in the order of all declarations.
* `Function.variableFor` is the variable that is collected for a declaration.
* `Block.lexical` lowers a body in an environment. Nothing comes back from a nested body.
* `Block.lower_eq_lexical`: the statements of a process are those of the lexical lowering.
* `Function.names_follow_scope` says so of whole functions.
-/

namespace ClockedC

/-! ## Environments -/

/-- A declaration, and how many declarations come before it in the function. -/
structure PlacedDeclaration where
  declaration : Declaration
  place : Nat

/-- The declaration that each name stands for at some point of a function. -/
abbrev Env := String → Option PlacedDeclaration

namespace Env

/-- No name is declared. -/
def empty : Env := fun _ => none

/-- The meaning of names behind a declaration, which replaces those of its name from before. -/
def declare (env : Env) (d : Declaration) (place : Nat) : Env :=
  fun n => if n = d.name then some ⟨d, place⟩ else env n

/-- Every name stands for a declaration of that name. -/
def WellNamed (env : Env) : Prop :=
  ∀ n p, env n = some p → p.declaration.name = n

theorem wellNamed_empty : empty.WellNamed := by
  intro n p h
  cases h

theorem WellNamed.declare {env : Env} (h : env.WellNamed) (d : Declaration) (place : Nat) :
    (env.declare d place).WellNamed := by
  intro n p hp
  unfold Env.declare at hp
  split at hp
  · next hn =>
    cases hp
    exact hn.symm
  · exact h n p hp

end Env

/-- What holds the value of a name. -/
inductive Holder where
  | var (name : String)
  | signal (name : String)

namespace Holder

def name : Holder → String
  | var n => n
  | signal n => n

/-- Sets what holds a value. -/
def set (value : Expr) : Holder → Sequential
  | var n => .setVariable n value
  | signal n => .setSignal (.name n) value

end Holder

namespace Function

/-- The variable that is collected for a declaration: its count is that of the earlier declarations
of the same name. An array has none, and neither has a local that is named like the output. -/
def variableFor (f : Function) (p : PlacedDeclaration) : Option ProcessVariable :=
  if p.declaration.hasVariable then
    let ordinal := variableCount (f.declarations.take p.place) p.declaration.name
    some ⟨p.declaration.name, variableName p.declaration.name ordinal, p.declaration.type, ordinal,
      f.hasParam p.declaration.name⟩
  else none

/-- The variables that are collected for all declarations. -/
def collectedVariables (f : Function) : List ProcessVariable :=
  f.declarations.zipIdx.filterMap fun (d, place) => f.variableFor ⟨d, place⟩

/-- The signal that results are written to. -/
def resultSignal (f : Function) : String :=
  if f.hidesOutput then heldResult else outputName

/-- What holds the value of a name: the variable of the declaration that the name stands for. Where
there is none, it is the signal for results if the name is that of the output, and else the signal
or input of that name. -/
def holderIn (f : Function) (env : Env) (n : String) : Holder :=
  match (env n).bind f.variableFor with
  | some v => .var v.name
  | none => .signal (if n = outputName then f.resultSignal else n)

end Function

/-! ## Lowering in an environment -/

/-- How names are resolved: which declarations take part, what holds the value of a name, and where
results go. -/
structure Scheme where
  counts : Declaration → Bool
  holder : Env → String → Holder
  result : String

namespace Scheme

variable (σ : Scheme)

/-- The environment behind a declaration. -/
def enter (env : Env) (d : Declaration) (place : Nat) : Env :=
  if σ.counts d then env.declare d place else env

/-- An expression with its names replaced by what holds their values. -/
def expr (env : Env) (e : Expr) : Expr :=
  e.rename fun n => (σ.holder env n).name

def assignment (env : Env) (a : Assignment) : Sequential :=
  match a.target with
  | .name n => (σ.holder env n).set (σ.expr env a.value)
  | .element base index text =>
    .setSignal (.element base (σ.expr env index) text) (σ.expr env a.value)

/-- The initial value is found in the environment before the declaration. -/
def declaration (env : Env) (place : Nat) (d : Declaration) : List Sequential :=
  match d.form with
  | .array .. => []
  | .scalar init =>
    (init.map fun e => (σ.holder (σ.enter env d place) d.name).set (σ.expr env e)).toList

def start (env : Env) (place : Nat) : Option ForStart → List Sequential
  | none => []
  | some (.declare d) => σ.declaration env place d
  | some (.assign a) => [σ.assignment env a]

/-- The environment of the condition, the body and the increment of a `for` loop. -/
def header (env : Env) (place : Nat) : Option ForStart → Env
  | some (.declare d) => σ.enter env d place
  | some (.assign _) | none => env

def jump (increment : Option Assignment) (env : Env) : Jump → List Sequential
  | .leave => [.exit]
  | .again => (increment.map (σ.assignment env)).toList ++ [.next]

/-- The environment behind a statement. -/
def after (env : Env) (place : Nat) : Stmt → Env
  | .declare d => σ.enter env d place
  | .assign _ | .ret .. | .branch .. | .whileLoop .. | .forLoop .. | .jump .. => env

end Scheme

mutual

/-- The sequential statements of a statement, which has `place` declarations before it. -/
def Stmt.lexical (σ : Scheme) (increment : Option Assignment) (env : Env) (place : Nat) :
    Stmt → List Sequential
  | .declare d => σ.declaration env place d
  | .assign a => [σ.assignment env a]
  | .ret none _ => []
  | .ret (some e) _ => [.setResult σ.result (σ.expr env e)]
  | .branch condition body otherwise _ =>
    [.branch (σ.expr env condition) (Block.lexical σ increment env place body)
      (otherwise.lexical σ increment env (place + (Block.declarations body).length))]
  | .whileLoop condition body _ =>
    [.loop (σ.expr env condition) (Block.lexical σ none env place body)]
  | .forLoop init condition body step _ =>
    let inner := σ.header env place init
    let first := place + ((init.map ForStart.declarations).getD []).length
    σ.start env place init ++
      [.loop (σ.expr inner condition)
        (Block.lexical σ step inner first body ++ (step.map (σ.assignment inner)).toList)]
  | .jump jump _ => σ.jump increment env jump

/-- What runs where a condition fails. -/
def Alternative.lexical (σ : Scheme) (increment : Option Assignment) (env : Env) (place : Nat) :
    Alternative → Elsewise
  | .none => .none
  | .body body => .body (Block.lexical σ increment env place body)
  | .branch condition body otherwise _ =>
    .branch (σ.expr env condition) (Block.lexical σ increment env place body)
      (otherwise.lexical σ increment env (place + (Block.declarations body).length))

/-- A body. Each statement is in the scope of the declarations before it. -/
def Block.lexical (σ : Scheme) (increment : Option Assignment) (env : Env) (place : Nat) :
    List Stmt → List Sequential
  | [] => []
  | stmt :: stmts =>
    stmt.lexical σ increment env place ++
      Block.lexical σ increment (σ.after env place stmt) (place + stmt.declarations.length) stmts

end

namespace Function

/-- The scheme by which the names of a function are resolved, when some of its declarations take
part. -/
def scheme (f : Function) (counts : Declaration → Bool) : Scheme :=
  ⟨counts, f.holderIn, f.resultSignal⟩

/-- The body of a function under a scheme. -/
def lexicalBody (f : Function) (σ : Scheme) : List Sequential :=
  Block.lexical σ none Env.empty 0 f.body

end Function

/-! ## The variable of a declaration -/

theorem variableCount_cons (d : Declaration) (ds : List Declaration) (n : String) :
    variableCount (d :: ds) n =
      (if d.hasVariable = true ∧ d.name = n then 1 else 0) + variableCount ds n := by
  unfold variableCount
  by_cases hd : d.hasVariable = true
  · rw [List.filter_cons_of_pos hd, List.map_cons, List.count_cons, Nat.add_comm]
    by_cases hn : d.name = n <;> simp [hd, hn]
  · rw [List.filter_cons_of_neg hd]
    simp [hd]

namespace Function

variable (f : Function)

/-- The variables are collected one by one, with the names of those from before. -/
theorem getElem?_variablesOf {earlier : List String} {ds : List Declaration} {i : Nat}
    {d : Declaration} (h : ds[i]? = some d) :
    (f.variablesOf earlier ds)[i]? = some (if d.hasVariable then
      let ordinal := earlier.count d.name + variableCount (ds.take i) d.name
      some ⟨d.name, variableName d.name ordinal, d.type, ordinal, f.hasParam d.name⟩
      else none) := by
  induction ds generalizing earlier i with
  | nil => cases h
  | cons first ds ih =>
    rw [variablesOf]
    cases i with
    | zero =>
      cases h
      have hcount : variableCount ([] : List Declaration) d.name = 0 := rfl
      rw [List.take_zero, hcount]
      split <;> rfl
    | succ i =>
      rw [List.getElem?_cons_succ] at h
      rw [List.take_succ_cons, variableCount_cons]
      by_cases hfirst : first.hasVariable = true
      · rw [if_pos hfirst, List.getElem?_cons_succ, ih h, List.count_cons]
        by_cases hname : first.name = d.name
        · simp only [hfirst, hname, and_self, if_true, beq_self_eq_true, Nat.add_assoc]
        · simp only [hfirst, hname, and_false, if_false, beq_iff_eq, Nat.zero_add, Nat.add_zero]
      · rw [if_neg hfirst, List.getElem?_cons_succ, ih h]
        simp only [hfirst, Bool.false_eq_true, false_and, if_false, Nat.zero_add]

theorem getElem?_declaredVariables {i : Nat} {d : Declaration} (h : f.declarations[i]? = some d) :
    f.declaredVariables[i]? = some (f.variableFor ⟨d, i⟩) := by
  unfold declaredVariables variableFor
  rw [f.getElem?_variablesOf h, List.count_nil, Nat.zero_add]

theorem length_variablesOf (earlier : List String) (ds : List Declaration) :
    (f.variablesOf earlier ds).length = ds.length := by
  induction ds generalizing earlier with
  | nil => rfl
  | cons d ds ih =>
    rw [variablesOf]
    split <;> rw [List.length_cons, ih, List.length_cons]

/-- The variables of a process are those that are collected for the declarations, in their order. -/
theorem locals_process : f.process.locals = f.collectedVariables := by
  have hlist : f.declaredVariables =
      f.declarations.zipIdx.map fun (d, place) => f.variableFor ⟨d, place⟩ := by
    apply List.ext_getElem?
    intro i
    rw [List.getElem?_map, List.getElem?_zipIdx]
    cases h : f.declarations[i]? with
    | some d =>
      rw [f.getElem?_declaredVariables h]
      simp only [Option.map_some, Nat.zero_add]
    | none =>
      have hlength := List.getElem?_eq_none_iff.mp h
      have hnone : f.declaredVariables[i]? = none := by
        rw [List.getElem?_eq_none_iff, declaredVariables, length_variablesOf]
        exact hlength
      rw [hnone]
      rfl
  show f.declaredVariables.filterMap id = _
  rw [hlist, List.filterMap_map]
  rfl

end Function

/-! ## Scopes and environments -/

/-- What holds the value of a name, by the scopes that are open. -/
def Naming.holder (naming : Naming) (n : String) : Holder :=
  match naming.resolve n with
  | some v => .var v.name
  | none => .signal (if n = outputName then naming.resultTarget else n)

theorem Naming.name_holder (naming : Naming) (n : String) :
    (naming.holder n).name = naming.nameOf n := by
  unfold holder nameOf
  cases naming.resolve n <;> rfl

namespace Scheme

/-- The scheme resolves the names of a function as its process does: every declaration with a
variable takes part, those that take part agree on whether there is one, and the holders and the
target of results are those of the function. -/
structure Fits (σ : Scheme) (f : Function) : Prop where
  counts_of_hasVariable : ∀ d : Declaration, d.hasVariable = true → σ.counts d = true
  agree : ∀ d ∈ f.declarations, ∀ d' ∈ f.declarations, d.name = d'.name → σ.counts d = true →
    σ.counts d' = true → d.hasVariable = d'.hasVariable
  holder_eq : ∀ env : Env, env.WellNamed → ∀ n, σ.holder env n = f.holderIn env n
  result_eq : σ.result = f.resultSignal

/-- The scopes that are open agree with an environment: each name is resolved to the variable of the
declaration that it stands for. -/
structure Matches (σ : Scheme) (f : Function) (naming : Naming) (env : Env) : Prop where
  declared : naming.declared = f.declaredVariables
  holdsResult : naming.holdsResult = f.hidesOutput
  resolve : ∀ n, naming.resolve n = (env n).bind f.variableFor
  wellNamed : env.WellNamed
  counted : ∀ n p, env n = some p → p.declaration ∈ f.declarations ∧ σ.counts p.declaration = true

variable {σ : Scheme} {f : Function} {naming : Naming} {env : Env}

theorem matches_start (σ : Scheme) (f : Function) :
    σ.Matches f (Naming.ofFunction f) Env.empty where
  declared := rfl
  holdsResult := rfl
  resolve _ := rfl
  wellNamed := Env.wellNamed_empty
  counted n p h := by cases h

namespace Matches

theorem push (h : σ.Matches f naming env) : σ.Matches f naming.push env where
  declared := h.declared
  holdsResult := h.holdsResult
  resolve := h.resolve
  wellNamed := h.wellNamed
  counted := h.counted

theorem resultTarget_eq (h : σ.Matches f naming env) : naming.resultTarget = f.resultSignal := by
  unfold Naming.resultTarget Function.resultSignal
  rw [h.holdsResult]

theorem holder_eq (h : σ.Matches f naming env) (fits : σ.Fits f) (n : String) :
    naming.holder n = σ.holder env n := by
  rw [fits.holder_eq env h.wellNamed, Naming.holder, Function.holderIn, h.resolve n,
    h.resultTarget_eq]

theorem resolve_eq (h : σ.Matches f naming env) (fits : σ.Fits f) (e : Expr) :
    e.resolve naming = σ.expr env e := by
  have hnames : naming.nameOf = fun n => (σ.holder env n).name := by
    funext n
    rw [← h.holder_eq fits n, naming.name_holder]
  rw [Expr.resolve, expr, hnames]

theorem assignment_eq (h : σ.Matches f naming env) (fits : σ.Fits f) (a : Assignment) :
    a.lower naming = σ.assignment env a := by
  unfold Assignment.lower assignment
  cases a.target with
  | name n =>
    dsimp only
    rw [← h.holder_eq fits n, ← h.resolve_eq fits, Naming.holder]
    cases hn : naming.resolve n with
    | some v => rfl
    | none =>
      have hname : naming.nameOf n = if n = outputName then naming.resultTarget else n := by
        rw [Naming.nameOf, hn]
      dsimp only
      rw [hname]
      rfl
  | element base index text =>
    dsimp only
    rw [h.resolve_eq fits, h.resolve_eq fits]

/-- A local without a variable leaves the scopes as they are. Its name is not bound in them. -/
theorem resolve_eq_none (h : σ.Matches f naming env) (fits : σ.Fits f) {d : Declaration}
    (hd : d ∈ f.declarations) (hcounts : σ.counts d = true) (hvariable : d.hasVariable = false) :
    naming.resolve d.name = none := by
  rw [h.resolve]
  cases hp : env d.name with
  | none => rfl
  | some p =>
    obtain ⟨hmem, hcounted⟩ := h.counted _ p hp
    have hagree := fits.agree _ hmem d hd (h.wellNamed _ p hp) hcounted hcounts
    show f.variableFor p = none
    rw [Function.variableFor, hagree, hvariable]
    rfl

/-- Going through a declaration keeps the agreement. -/
theorem enter (h : σ.Matches f naming env) (fits : σ.Fits f) {d : Declaration} {place : Nat}
    (hd : f.declarations[place]? = some d) :
    σ.Matches f (naming.bind place).2 (σ.enter env d place) := by
  have hmem : d ∈ f.declarations := List.mem_of_getElem? hd
  have hdeclared : naming.declared[place]? = some (f.variableFor ⟨d, place⟩) := by
    rw [h.declared, f.getElem?_declaredVariables hd]
  have hcounted : ∀ n p, env.declare d place n = some p → σ.counts d = true →
      p.declaration ∈ f.declarations ∧ σ.counts p.declaration = true := by
    intro n p hp hcounts
    unfold Env.declare at hp
    split at hp
    · cases hp
      exact ⟨hmem, hcounts⟩
    · exact h.counted n p hp
  by_cases hvariable : d.hasVariable = true
  · -- The variable is bound, and the name stands for it from here on.
    have hcounts := fits.counts_of_hasVariable d hvariable
    obtain ⟨v, hv, hsource⟩ : ∃ v, f.variableFor ⟨d, place⟩ = some v ∧ v.source = d.name := by
      rw [Function.variableFor, if_pos hvariable]
      exact ⟨_, rfl, rfl⟩
    have hbind : (naming.bind place).2 = naming.bindVariable v := by
      rw [Naming.bind, hdeclared, hv]
    have henter : σ.enter env d place = env.declare d place := if_pos hcounts
    have hextends := Naming.Extends.bindVariable naming v
    rw [hbind, henter]
    refine ⟨?_, ?_, ?_, h.wellNamed.declare d place, fun n p hp => hcounted n p hp hcounts⟩
    · rw [hextends.declared_eq, h.declared]
    · rw [hextends.holdsResult_eq, h.holdsResult]
    · intro n
      rw [Naming.resolve_eq_lookup, Naming.bindings_bindVariable, List.lookup_cons, hsource]
      by_cases hn : n = d.name
      · have hself : (n == d.name) = true := beq_iff_eq.mpr hn
        rw [hself, Env.declare, if_pos hn]
        exact hv.symm
      · have hother : (n == d.name) = false := beq_false_of_ne hn
        rw [hother, Env.declare, if_neg hn, ← Naming.resolve_eq_lookup]
        exact h.resolve n
  · -- Nothing is bound. If the declaration takes part, the name stands for nothing either way.
    have hnone : f.variableFor ⟨d, place⟩ = none := if_neg hvariable
    have hbind : (naming.bind place).2 = naming := by
      rw [Naming.bind, hdeclared, hnone]
    rw [hbind]
    unfold Scheme.enter
    split
    · next hcounts =>
      refine ⟨h.declared, h.holdsResult, ?_, h.wellNamed.declare d place,
        fun n p hp => hcounted n p hp hcounts⟩
      intro n
      unfold Env.declare
      split
      · next hn =>
        rw [hn, h.resolve_eq_none fits hmem hcounts (Bool.eq_false_iff.mpr hvariable)]
        exact hnone.symm
      · exact h.resolve n
    · exact h

/-- No variable is ever bound by the name of the output. -/
theorem resolve_outputName (h : σ.Matches f naming env) : naming.resolve outputName = none := by
  rw [h.resolve]
  cases hp : env outputName with
  | none => rfl
  | some p =>
    have hname := h.wellNamed _ p hp
    have hvariable : p.declaration.hasVariable = false := by
      simp [Declaration.hasVariable, hname]
    show f.variableFor p = none
    rw [Function.variableFor, hvariable]
    rfl

end Matches

end Scheme

/-! ## Statements -/

/-- The declarations of a function from a place on begin with some given ones. -/
def Function.Declares (f : Function) (place : Nat) (ds : List Declaration) : Prop :=
  ds <+: f.declarations.drop place

namespace Function.Declares

variable {f : Function} {place : Nat}

theorem getElem? {d : Declaration} (h : f.Declares place [d]) :
    f.declarations[place]? = some d := by
  obtain ⟨rest, hrest⟩ := h
  have hhead := congrArg List.head? hrest
  rw [List.head?_drop] at hhead
  exact hhead.symm

theorem append {ds ds' : List Declaration} (h : f.Declares place (ds ++ ds')) :
    f.Declares place ds ∧ f.Declares (place + ds.length) ds' := by
  obtain ⟨rest, hrest⟩ := h
  rw [List.append_assoc] at hrest
  refine ⟨⟨ds' ++ rest, hrest⟩, rest, ?_⟩
  rw [← List.drop_drop, ← hrest, List.drop_left]

end Function.Declares

section Statements

variable {σ : Scheme} {f : Function} {env : Env} {s : Lowering}

theorem Declaration.matches_lower (h : σ.Matches f s.naming env) (fits : σ.Fits f)
    {d : Declaration} (hd : f.declarations[s.seen]? = some d) :
    σ.Matches f (d.lower s).2.naming (σ.enter env d s.seen) := by
  have henter := h.enter fits hd
  rw [d.lower_snd]
  dsimp only
  split
  · next harray =>
    -- An array has no variable, so binding it does nothing.
    have hnone : f.variableFor ⟨d, s.seen⟩ = none := by
      simp [Function.variableFor, Declaration.hasVariable, harray]
    have hbind : (s.naming.bind s.seen).2 = s.naming := by
      rw [Naming.bind, h.declared, f.getElem?_declaredVariables hd, hnone]
    rwa [hbind] at henter
  · exact henter

theorem Declaration.lower_eq_lexical (h : σ.Matches f s.naming env) (fits : σ.Fits f)
    {d : Declaration} (hd : f.declarations[s.seen]? = some d) :
    (d.lower s).1 = σ.declaration env s.seen d := by
  have hdeclared : s.naming.declared[s.seen]? = some (f.variableFor ⟨d, s.seen⟩) := by
    rw [h.declared, f.getElem?_declaredVariables hd]
  unfold Declaration.lower Scheme.declaration
  cases hform : d.form with
  | array size init => rfl
  | scalar init =>
    cases init with
    | none => rfl
    | some e =>
      have hholder := (h.enter fits hd).holder_eq fits d.name
      simp only [Option.map_some, Option.toList_some, ← hholder, ← h.resolve_eq fits]
      congr 1
      have hscalar : d.isArray = false := by rw [Declaration.isArray, hform]
      by_cases hvariable : d.hasVariable = true
      · have hv : f.variableFor ⟨d, s.seen⟩ ≠ none := by
          rw [Function.variableFor, if_pos hvariable]
          exact Option.some_ne_none _
        obtain ⟨v, hv⟩ := Option.ne_none_iff_exists'.mp hv
        have hsource : v.source = d.name := by
          rw [Function.variableFor, if_pos hvariable] at hv
          cases hv
          rfl
        have hresolve : (s.naming.bindVariable v).resolve d.name = some v := by
          rw [Naming.resolve_eq_lookup, Naming.bindings_bindVariable, List.lookup_cons, hsource,
            beq_self_eq_true]
        simp only [Naming.bind, hdeclared, hv, Naming.holder, hresolve, Holder.set]
      · have hname : d.name = outputName := by
          simpa [Declaration.hasVariable, hscalar] using hvariable
        have hnone : f.variableFor ⟨d, s.seen⟩ = none := if_neg hvariable
        have hresolve : s.naming.resolve d.name = none := by
          rw [hname]
          exact h.resolve_outputName
        simp only [Naming.bind, hdeclared, hnone, Naming.holder, Naming.nameOf, hresolve,
          Holder.set]

theorem matches_lowerStart (h : σ.Matches f s.naming env) (fits : σ.Fits f)
    {init : Option ForStart}
    (hd : f.Declares s.seen ((init.map ForStart.declarations).getD [])) :
    (lowerStart init s).1 = σ.start env s.seen init ∧
      σ.Matches f (lowerStart init s).2.naming (σ.header env s.seen init) := by
  cases init with
  | none => exact ⟨rfl, h⟩
  | some init =>
    cases init with
    | assign a => exact ⟨congrArg ([·]) (h.assignment_eq fits a), h⟩
    | declare d =>
      have hplace := Function.Declares.getElem? hd
      exact ⟨Declaration.lower_eq_lexical h fits hplace, Declaration.matches_lower h fits hplace⟩

theorem Stmt.matches_namingAfter (h : σ.Matches f s.naming env) (fits : σ.Fits f) {stmt : Stmt}
    (hd : f.Declares s.seen stmt.declarations) :
    σ.Matches f (stmt.namingAfter s) (σ.after env s.seen stmt) := by
  cases stmt with
  | declare d =>
    rw [Stmt.declarations] at hd
    exact Declaration.matches_lower h fits hd.getElem?
  | _ => exact h

end Statements

mutual

/-- A statement is lowered in the scopes that are open as in an environment that agrees with
them. -/
theorem Stmt.lower_eq_lexical {σ : Scheme} {f : Function} (fits : σ.Fits f) :
    ∀ (stmt : Stmt) (increment : Option Assignment) (s : Lowering) (env : Env),
      σ.Matches f s.naming env → f.Declares s.seen stmt.declarations →
      (stmt.lower increment s).1 = stmt.lexical σ increment env s.seen
  | .declare d, _, s, _, h, hd => by
    rw [Stmt.declarations] at hd
    rw [Stmt.lower, Stmt.lexical]
    exact Declaration.lower_eq_lexical h fits hd.getElem?
  | .assign a, _, _, _, h, _ => by
    rw [Stmt.lower, Stmt.lexical, h.assignment_eq fits]
  | .ret none _, _, _, _, _, _ => by
    rw [Stmt.lower, Stmt.lexical]
  | .ret (some e) _, _, _, _, h, _ => by
    rw [Stmt.lower, Stmt.lexical, h.resolve_eq fits, h.resultTarget_eq, fits.result_eq]
  | .branch condition body otherwise _, increment, s, env, h, hd => by
    rw [Stmt.declarations] at hd
    obtain ⟨hbody, hotherwise⟩ := hd.append
    have hpop := Block.lower_snd_pop body increment s
    rw [Stmt.lower, Stmt.lexical]
    dsimp only
    rw [hpop, h.resolve_eq fits, Block.lower_eq_lexical fits body increment s.push env h.push hbody,
      Alternative.lower_eq_lexical fits otherwise increment
        ⟨s.naming, s.seen + (Block.declarations body).length⟩ env h hotherwise]
    rfl
  | .whileLoop condition body _, _, s, env, h, hd => by
    rw [Stmt.declarations] at hd
    rw [Stmt.lower, Stmt.lexical]
    dsimp only
    rw [h.resolve_eq fits, Block.lower_eq_lexical fits body none s.push env h.push hd]
    rfl
  | .forLoop init condition body step position, increment, s, env, h, hd => by
    rw [Stmt.declarations] at hd
    obtain ⟨hinit, hbody⟩ := hd.append
    obtain ⟨hstart, hinner⟩ := matches_lowerStart (s := s.push) h.push fits hinit
    have hplace : (lowerStart init s.push).2.push.seen =
        s.seen + ((init.map ForStart.declarations).getD []).length :=
      (lowerStart_snd init s.push).2
    have hloop := Block.lower_eq_lexical fits body step (lowerStart init s.push).2.push _
      hinner.push (by rw [hplace]; exact hbody)
    have hpop := Block.lower_snd_pop body step (lowerStart init s.push).2
    rw [Stmt.lower_forLoop, Stmt.lexical]
    dsimp only
    rw [hpop, hstart, hinner.resolve_eq fits, hloop, hplace, funext (hinner.assignment_eq fits)]
    rfl
  | .jump jump _, increment, s, env, h, _ => by
    rw [Stmt.lower, Stmt.lexical]
    cases jump with
    | leave => rfl
    | again => rw [Jump.lower, Scheme.jump, funext (h.assignment_eq fits)]

theorem Alternative.lower_eq_lexical {σ : Scheme} {f : Function} (fits : σ.Fits f) :
    ∀ (a : Alternative) (increment : Option Assignment) (s : Lowering) (env : Env),
      σ.Matches f s.naming env → f.Declares s.seen a.declarations →
      (a.lower increment s).1 = a.lexical σ increment env s.seen
  | .none, _, _, _, _, _ => by
    rw [Alternative.lower, Alternative.lexical]
  | .body body, increment, s, env, h, hd => by
    rw [Alternative.declarations] at hd
    rw [Alternative.lower, Alternative.lexical]
    dsimp only
    rw [Block.lower_eq_lexical fits body increment s.push env h.push hd]
    rfl
  | .branch condition body otherwise _, increment, s, env, h, hd => by
    rw [Alternative.declarations] at hd
    obtain ⟨hbody, hotherwise⟩ := hd.append
    have hpop := Block.lower_snd_pop body increment s
    rw [Alternative.lower, Alternative.lexical]
    dsimp only
    rw [hpop, h.resolve_eq fits, Block.lower_eq_lexical fits body increment s.push env h.push hbody,
      Alternative.lower_eq_lexical fits otherwise increment
        ⟨s.naming, s.seen + (Block.declarations body).length⟩ env h hotherwise]
    rfl

theorem Block.lower_eq_lexical {σ : Scheme} {f : Function} (fits : σ.Fits f) :
    ∀ (ss : List Stmt) (increment : Option Assignment) (s : Lowering) (env : Env),
      σ.Matches f s.naming env → f.Declares s.seen (Block.declarations ss) →
      (Block.lower increment ss s).1 = Block.lexical σ increment env s.seen ss
  | [], _, _, _, _, _ => by
    rw [Block.lower, Block.lexical]
  | stmt :: ss, increment, s, env, h, hd => by
    rw [Block.declarations] at hd
    obtain ⟨hfirst, hrest⟩ := hd.append
    have hafter := Stmt.matches_namingAfter h fits hfirst
    rw [Block.lower, Block.lexical]
    dsimp only
    rw [Stmt.lower_eq_lexical fits stmt increment s env h hfirst, stmt.lower_snd increment s,
      Block.lower_eq_lexical fits ss increment ⟨stmt.namingAfter s, _⟩ _ hafter hrest]

end

/-! ## Whole functions -/

namespace Function

theorem isArray_eq_of_shape_eq {d d' : Declaration} (h : d.form.shape = d'.form.shape) :
    d.isArray = d'.isArray := by
  have harray : ∀ d : Declaration, d.isArray = (d.form.shape != .scalar) := by
    intro d
    unfold Declaration.isArray
    cases d.form <;> rfl
  rw [harray d, harray d', h]

/-- In a function that is read, a name is a scalar or an array throughout. -/
theorem isArray_eq_of_agrees {f : Function} (h : f.mentions.Pairwise Mention.Agrees)
    {d d' : Declaration} (hd : d ∈ f.declarations) (hd' : d' ∈ f.declarations)
    (hname : d.name = d'.name) : d.isArray = d'.isArray := by
  have hbody : (Block.mentions f.body).Pairwise Mention.Agrees := (List.pairwise_append.mp h).2.1
  have hmention := mention_of_mem_declarations hd
  rw [hname] at hmention
  exact isArray_eq_of_shape_eq
    (Mention.shape_unique hbody hmention (mention_of_mem_declarations hd'))

/-- It is enough that the declarations with a variable take part. -/
theorem fits_hasVariable (f : Function) : (f.scheme Declaration.hasVariable).Fits f where
  counts_of_hasVariable _ h := h
  agree _ _ _ _ _ h h' := h.trans h'.symm
  holder_eq _ _ _ := rfl
  result_eq := rfl

/-- In a function that is read, all declarations can take part. -/
theorem fits_all {f : Function} (h : f.mentions.Pairwise Mention.Agrees) :
    (f.scheme fun _ => true).Fits f where
  counts_of_hasVariable _ _ := rfl
  agree d hd d' hd' hname _ _ := by
    unfold Declaration.hasVariable
    rw [isArray_eq_of_agrees h hd hd' hname, hname]
  holder_eq _ _ _ := rfl
  result_eq := rfl

/-- The process of a function is its lexical lowering under every scheme that fits. -/
theorem body_process {f : Function} {σ : Scheme} (fits : σ.Fits f) :
    f.process.body = f.lexicalBody σ := by
  have hmatches := (σ.matches_start f).push
  have hdeclares : f.Declares 0 (Block.declarations f.body) := List.prefix_refl _
  exact Block.lower_eq_lexical fits f.body none ⟨(Naming.ofFunction f).push, 0⟩ Env.empty hmatches
    hdeclares

/-- **Names follow lexical scope.** The variables of a process are those collected for the
declarations of the function, and its statements are those that lexical scope gives: each name is
written as the variable of the declaration it stands for, as the signal for results if it is the
name of the output, and as itself otherwise. In a function that is read from a source it does not
matter whether declarations without a variable take part. Only a declaration changes what is
bound. -/
theorem names_follow_scope (f : Function) :
    f.process = ⟨f.collectedVariables, f.lexicalBody (f.scheme Declaration.hasVariable)⟩ ∧
    (∀ source program, (Program.prepare source).outcome = .ok program → f ∈ program.functions →
      f.process.body = f.lexicalBody (f.scheme fun _ => true)) ∧
    ∀ (stmt : Stmt) (increment : Option Assignment) (s : Lowering), (∀ d, stmt ≠ .declare d) →
      (stmt.lower increment s).2.naming = s.naming := by
  refine ⟨?_, ?_, ?_⟩
  · have hlocals := f.locals_process
    have hbody := body_process f.fits_hasVariable
    rw [← hlocals, ← hbody]
  · intro source program hprogram hf
    exact body_process (fits_all (Program.pairwise_agrees_of_prepare hprogram hf))
  · intro stmt increment s hstmt
    rw [stmt.lower_snd]
    cases stmt with
    | declare d => exact absurd rfl (hstmt d)
    | _ => rfl

end Function

/-- The name `x` is declared three times: in the body of the function, in the header of the loop and
in the body of the loop. The initial value of the last one is that of the second. -/
theorem names_follow_scope_nested :
    let x (init : Expr) (column : Nat) : Declaration :=
      ⟨"x", .int, .scalar (some init), ⟨1, column⟩⟩
    let f : Function := ⟨"f", .int, [⟨.int, "n"⟩],
      [.declare (x (.name "n") 16),
        .forLoop (some (.declare (x (.number "0") 32)))
          (.binary .lt (.name "x") (.name "n"))
          [.declare (x (.binary .add (.name "x") (.number "1")) 57)]
          (some ⟨.name "x", .binary .add (.name "x") (.number "1"), ⟨1, 50⟩⟩) ⟨1, 27⟩,
        .ret (some (.name "x")) ⟨1, 74⟩], ⟨1, 5⟩⟩
    (Program.prepare
      "int f(int n) { int x = n; for (int x = 0; x < n; x++) { int x = x + 1; } return x; }"
      ).outcome = .ok ⟨[f]⟩ ∧
    f.process.body = f.lexicalBody (f.scheme fun _ => true) ∧
    Sequential.linesOfList 0 (f.lexicalBody (f.scheme fun _ => true)) =
      ["x_v := n;",
        "x_v1 := 0;",
        "while unsigned(x_v1) < unsigned(n) loop",
        "  x_v2 := x_v1 + 1;",
        "  x_v1 := x_v1 + 1;",
        "end loop;",
        "result <= x_v;"] := by
  intro x f
  have hprepare : (Program.prepare
      "int f(int n) { int x = n; for (int x = 0; x < n; x++) { int x = x + 1; } return x; }"
      ).outcome = .ok ⟨[f]⟩ :=
    Program.outcome_prepare_eq_ok.2 ⟨⟨[f]⟩, by with_unfolding_all rfl, rfl⟩
  exact ⟨hprepare, (Function.names_follow_scope f).2.1 _ _ hprepare (List.mem_singleton_self f),
    by decide⟩

end ClockedC
