import ClockedC.Process.Basic

/-!
# Scopes along the statements of a function

Going through a statement changes what names stand for only if the statement is a declaration. A
nested body leaves no trace but the count of its declarations.

* `Naming.bindings` lists what is bound in all open scopes, and `Naming.resolve_eq_lookup` says that
  a name stands for the first of its entries.
* `Stmt.lower_snd` and `Block.lower_snd_pop` give the state after a statement and after a nested
  body.
* `Naming.Extends` relates the naming before a body to the one at its end.
-/

namespace ClockedC

/-! ## Bindings -/

namespace Naming

/-- What is bound in the open scopes, the latest first. -/
def bindings (n : Naming) : Scope := n.scopes.flatten

theorem resolve_eq_lookup (n : Naming) (name : String) :
    n.resolve name = n.bindings.lookup name := by
  unfold resolve bindings
  induction n.scopes with
  | nil => rfl
  | cons scope scopes ih =>
    rw [List.findSome?_cons, List.flatten_cons, List.lookup_append, ih]
    cases scope.lookup name <;> rfl

@[simp] theorem bindings_bindVariable (n : Naming) (v : ProcessVariable) :
    (n.bindVariable v).bindings = (v.source, v) :: n.bindings := by
  unfold bindVariable bindings
  split
  · next h => rw [h]; rfl
  · next h => rw [h]; rfl

@[simp] theorem pop_bindVariable (n : Naming) (v : ProcessVariable) :
    (n.bindVariable v).pop = n.pop := by
  unfold bindVariable pop
  split
  · next h => rw [h]; rfl
  · next h => rw [h]; rfl

/-- A naming that differs from an earlier one by what the innermost scope has got since. -/
structure Extends (n n' : Naming) : Prop where
  pop_eq : n'.pop = n.pop
  suffix : n.bindings <:+ n'.bindings

namespace Extends

variable {n n' n'' : Naming}

theorem refl (n : Naming) : n.Extends n := ⟨rfl, List.suffix_refl _⟩

theorem trans (h : n.Extends n') (h' : n'.Extends n'') : n.Extends n'' :=
  ⟨h'.pop_eq.trans h.pop_eq, h.suffix.trans h'.suffix⟩

theorem bindVariable (n : Naming) (v : ProcessVariable) : n.Extends (n.bindVariable v) := by
  refine ⟨n.pop_bindVariable v, ?_⟩
  rw [bindings_bindVariable]
  exact List.suffix_cons _ _

theorem declared_eq (h : n.Extends n') : n'.declared = n.declared := by
  have hpop := congrArg Naming.declared h.pop_eq
  exact hpop

theorem holdsResult_eq (h : n.Extends n') : n'.holdsResult = n.holdsResult := by
  have hpop := congrArg Naming.holdsResult h.pop_eq
  exact hpop

end Extends

theorem extends_bind (n : Naming) (index : Nat) : n.Extends (n.bind index).2 := by
  unfold bind
  split
  · exact Extends.bindVariable n _
  · exact Extends.refl n

end Naming

/-! ## States -/

theorem Declaration.lower_snd (d : Declaration) (s : Lowering) :
    (d.lower s).2 = ⟨if d.isArray then s.naming else (s.naming.bind s.seen).2, s.seen + 1⟩ := by
  unfold lower isArray
  cases d.form <;> rfl

theorem Declaration.extends_lower (d : Declaration) (s : Lowering) :
    s.naming.Extends (d.lower s).2.naming := by
  rw [d.lower_snd]
  dsimp only
  split
  · exact .refl _
  · exact s.naming.extends_bind s.seen

/-- What a `for` loop does before its first round, if anything. -/
def lowerStart (init : Option ForStart) (s : Lowering) : List Sequential × Lowering :=
  match init with
  | none => ([], s)
  | some init => init.lower s

theorem lowerStart_snd (init : Option ForStart) (s : Lowering) :
    s.naming.Extends (lowerStart init s).2.naming ∧
      (lowerStart init s).2.seen =
        s.seen + ((init.map ForStart.declarations).getD []).length := by
  cases init with
  | none => exact ⟨.refl _, rfl⟩
  | some i =>
    cases i with
    | declare d =>
      refine ⟨d.extends_lower s, ?_⟩
      rw [lowerStart, ForStart.lower, d.lower_snd]
      rfl
    | assign a => exact ⟨.refl _, rfl⟩

theorem Stmt.lower_forLoop (init : Option ForStart) (condition : Expr) (body : List Stmt)
    (step : Option Assignment) (position : Position) (increment : Option Assignment)
    (s : Lowering) :
    Stmt.lower increment (.forLoop init condition body step position) s =
      let start := lowerStart init s.push
      let inner := Block.lower step body start.2.push
      (start.1 ++ [.loop (condition.resolve start.2.naming)
        (inner.1 ++ (step.map (Assignment.lower inner.2.pop.naming)).toList)],
        inner.2.pop.pop) := by
  cases init <;> rw [Stmt.lower, lowerStart]

/-- What names stand for after a statement. -/
def Stmt.namingAfter (stmt : Stmt) (s : Lowering) : Naming :=
  match stmt with
  | .declare d => (d.lower s).2.naming
  | .assign _ | .ret .. | .branch .. | .whileLoop .. | .forLoop .. | .jump .. => s.naming

theorem Stmt.extends_namingAfter (stmt : Stmt) (s : Lowering) :
    s.naming.Extends (stmt.namingAfter s) := by
  cases stmt with
  | declare d => exact d.extends_lower s
  | _ => exact .refl _

mutual

theorem Stmt.lower_snd : ∀ (stmt : Stmt) (increment : Option Assignment) (s : Lowering),
    (stmt.lower increment s).2 = ⟨stmt.namingAfter s, s.seen + stmt.declarations.length⟩
  | .declare d, _, s => by
    rw [Stmt.lower, Stmt.namingAfter, Stmt.declarations, d.lower_snd, List.length_singleton]
  | .assign _, _, _ | .ret none _, _, _ | .ret (some _) _, _, _ | .jump _ _, _, _ => by
    rw [Stmt.lower, Stmt.namingAfter, Stmt.declarations]
    rfl
  | .branch condition body otherwise _, increment, s => by
    have hbody := Block.lower_snd_pop body increment s
    rw [Stmt.lower, Stmt.namingAfter, Stmt.declarations]
    dsimp only
    rw [hbody, Alternative.lower_snd otherwise, List.length_append, Nat.add_assoc]
  | .whileLoop condition body _, _, s => by
    have hbody := Block.lower_snd_pop body none s
    rw [Stmt.lower, Stmt.namingAfter, Stmt.declarations]
    exact hbody
  | .forLoop init condition body step position, increment, s => by
    obtain ⟨hstart, hseen⟩ := lowerStart_snd init s.push
    have hbody := Block.lower_snd_pop body step (lowerStart init s.push).2
    rw [Stmt.lower_forLoop, Stmt.namingAfter, Stmt.declarations]
    dsimp only
    rw [hbody, List.length_append, ← Nat.add_assoc]
    -- The scope of the loop header is closed after the one of the body.
    have hpop : (lowerStart init s.push).2.naming.pop = s.naming := hstart.pop_eq
    rw [Lowering.pop, hpop, hseen]
    rfl

theorem Alternative.lower_snd : ∀ (a : Alternative) (increment : Option Assignment) (s : Lowering),
    (a.lower increment s).2 = ⟨s.naming, s.seen + a.declarations.length⟩
  | .none, _, s => by
    rw [Alternative.lower, Alternative.declarations]
    rfl
  | .body body, increment, s => by
    have hbody := Block.lower_snd_pop body increment s
    rw [Alternative.lower, Alternative.declarations]
    exact hbody
  | .branch condition body otherwise _, increment, s => by
    have hbody := Block.lower_snd_pop body increment s
    rw [Alternative.lower, Alternative.declarations]
    dsimp only
    rw [hbody, Alternative.lower_snd otherwise, List.length_append, Nat.add_assoc]

theorem Block.lower_snd : ∀ (ss : List Stmt) (increment : Option Assignment) (s : Lowering),
    s.naming.Extends (Block.lower increment ss s).2.naming ∧
      (Block.lower increment ss s).2.seen = s.seen + (Block.declarations ss).length
  | [], _, s => by
    rw [Block.lower, Block.declarations]
    exact ⟨.refl _, rfl⟩
  | stmt :: ss, increment, s => by
    have hfirst := Stmt.lower_snd stmt increment s
    have hrest := Block.lower_snd ss increment (stmt.lower increment s).2
    rw [hfirst] at hrest
    rw [Block.lower, Block.declarations]
    dsimp only
    rw [hfirst]
    refine ⟨(stmt.extends_namingAfter s).trans hrest.1, ?_⟩
    rw [hrest.2, List.length_append, Nat.add_assoc]

theorem Block.lower_snd_pop (ss : List Stmt) (increment : Option Assignment) (s : Lowering) :
    (Block.lower increment ss s.push).2.pop =
      ⟨s.naming, s.seen + (Block.declarations ss).length⟩ := by
  obtain ⟨hnaming, hseen⟩ := Block.lower_snd ss increment s.push
  rw [Lowering.pop, hnaming.pop_eq, hseen]
  rfl

end

end ClockedC
