import ClockedC.Proofs.Execution
import ClockedC.Proofs.PlainFunction
import ClockedC.Proofs.Scopes
import ClockedC.Proofs.VariableNames

/-!
# The stack of a run in the variables of a tick

While a plain function and its process run side by side, each entry on the stack of the function is
held by the variable of its declaration, and the inputs are read from outside of the process.

* `Sees` says that the variables hold the stack.
* `Lowering.Sound` says that a state of the lowering is one of a function, with variables of their
  own for all names that are bound.
* `Sees.value`: an expression has the same value on both sides.
* `Assignment.exec_lower` and `Declaration.exec_lower`: both sides take one step and the variables
  still hold the stack.
-/

namespace ClockedC

variable {V : Type}

/-! ## Expressions -/

/-- Renaming the names of an expression along with the places they are read from keeps its value. -/
theorem Expr.value_rename {m : Meaning V} {p : String → Bool} {read read' : String → Option V}
    {g : String → String}
    (hread : ∀ n, p n = true → ∃ v, read n = some v ∧ read' (g n) = some v) :
    ∀ e : Expr, e.readsOnly p = true →
      ∃ v, e.value m read = .ok v ∧ (e.rename g).value m read' = .ok v
  | .number text, _ => ⟨m.number text, rfl, rfl⟩
  | .name n, h => by
    obtain ⟨v, hv, hv'⟩ := hread n h
    refine ⟨v, ?_, ?_⟩
    · rw [value, hv, Run.ofOption]
    · rw [rename, value, hv', Run.ofOption]
  | .unary op operand, h => by
    obtain ⟨v, hv, hv'⟩ := value_rename hread operand h
    refine ⟨m.unary op v, ?_, ?_⟩
    · rw [value, hv]
      rfl
    · rw [rename, value, hv']
      rfl
  | .binary op left right, h => by
    rw [readsOnly, Bool.and_eq_true] at h
    obtain ⟨v, hv, hv'⟩ := value_rename hread left h.1
    obtain ⟨u, hu, hu'⟩ := value_rename hread right h.2
    refine ⟨m.binary op v u, ?_, ?_⟩
    · rw [value, hv, hu]
      rfl
    · rw [rename, value, hv', hu']
      rfl

theorem Expr.rename_congr {p : String → Bool} {g g' : String → String}
    (hg : ∀ n, p n = true → g n = g' n) :
    ∀ e : Expr, e.readsOnly p = true → e.rename g = e.rename g'
  | .number _, _ => rfl
  | .name n, h => congrArg Expr.name (hg n h)
  | .unary op operand, h => congrArg (Expr.unary op) (rename_congr hg operand h)
  | .binary op left right, h => by
    rw [readsOnly, Bool.and_eq_true] at h
    rw [rename, rename, rename_congr hg left h.1, rename_congr hg right h.2]

/-! ## Stacks -/

namespace Stack

theorem leave_leave {low high : Nat} (h : low ≤ high) (stack : Stack V) :
    (stack.leave high).leave low = stack.leave low := by
  unfold leave
  rw [List.drop_drop, List.length_drop]
  congr 1
  omega

theorem leave_append {height : Nat} (above below : Stack V) (h : below.length = height) :
    Stack.leave height (above ++ below) = below := by
  unfold leave
  rw [List.length_append, h, Nat.add_sub_cancel, List.drop_left]

end Stack

theorem lookup_eq_none_iff_not_mem {β : Type} {l : List (String × β)} {name : String} :
    l.lookup name = none ↔ name ∉ l.map (·.1) := by
  rw [List.lookup_eq_none_iff, List.mem_map]
  constructor
  · rintro h ⟨b, hb, rfl⟩
    exact absurd (h b hb) (by simp)
  · intro h b hb
    rw [bne_iff_ne]
    intro heq
    exact h ⟨b, hb, heq.symm⟩

/-- What a variable holds for the name it is bound to. -/
def Tick.entry (t : Tick V) (b : String × ProcessVariable) : String × V :=
  (b.1, t.held b.2.name)

theorem Tick.lookup_map_entry (t : Tick V) (bs : Scope) (name : String) :
    (bs.map t.entry).lookup name = (bs.lookup name).map fun v => t.held v.name := by
  induction bs with
  | nil => rfl
  | cons b bs ih =>
    rw [List.map_cons, entry, List.lookup_cons, List.lookup_cons, ih]
    split <;> rfl

theorem Tick.map_entry_set {bs : Scope} {name : String} (h : name ∉ bs.map (·.2.name)) (t : Tick V)
    (value : V) : bs.map (t.set name value).entry = bs.map t.entry := by
  apply List.map_congr_left
  intro b hb
  have hne : b.2.name ≠ name := by
    intro heq
    exact h (heq ▸ List.mem_map_of_mem hb)
  rw [entry, entry, held_set_of_ne hne]

/-- The stack has an entry for each name that is bound, whose value is that of the variable, and the
inputs below them. -/
def Sees (inputs : Stack V) (n : Naming) (t : Tick V) (stack : Stack V) : Prop :=
  stack = n.bindings.map t.entry ++ inputs

namespace Sees

variable {inputs stack : Stack V} {n n' : Naming} {t : Tick V}

theorem length_eq (h : Sees inputs n t stack) :
    stack.length = n.bindings.length + inputs.length := by
  rw [h, List.length_append, List.length_map]

theorem leave (hsuffix : n.bindings <:+ n'.bindings) (h : Sees inputs n' t stack) :
    Sees inputs n t (stack.leave (n.bindings.length + inputs.length)) := by
  obtain ⟨inner, hinner⟩ := hsuffix
  rw [Sees, h, ← hinner, List.map_append, List.append_assoc]
  apply Stack.leave_append
  rw [List.length_append, List.length_map]

theorem bindVariable {v : ProcessVariable} (hfresh : v.name ∉ n.bindings.map (·.2.name)) (value : V)
    (h : Sees inputs n t stack) :
    Sees inputs (n.bindVariable v) (t.set v.name value) ((v.source, value) :: stack) := by
  rw [Sees, Naming.bindings_bindVariable, List.map_cons, Tick.map_entry_set hfresh, h, Tick.entry,
    Tick.held_set_self]
  rfl

theorem set {name : String} {v : ProcessVariable} (hv : n.bindings.lookup name = some v)
    (hdistinct : (n.bindings.map (·.2.name)).Nodup) (value : V) (h : Sees inputs n t stack) :
    ∃ stack', stack.set? name value = some stack' ∧
      Sees inputs n (t.set v.name value) stack' := by
  refine ⟨_, ?_, rfl⟩
  rw [h]
  generalize n.bindings = bs at hv hdistinct
  induction bs with
  | nil => cases hv
  | cons b bs ih =>
    rw [List.map_cons, List.nodup_cons] at hdistinct
    rw [List.map_cons, List.map_cons, List.cons_append, List.cons_append, Stack.set?]
    by_cases hname : b.1 = name
    · -- Only the latest entry of the name changes, because the variables differ.
      have hb : b.2 = v := by
        rw [List.lookup_cons, hname, beq_self_eq_true] at hv
        exact Option.some.inj hv
      subst hb
      rw [Tick.map_entry_set hdistinct.1, Tick.entry, Tick.entry, if_pos hname,
        Tick.held_set_self, hname]
    · have hrest : bs.lookup name = some v := by
        rw [List.lookup_cons, beq_eq_false_iff_ne.mpr (Ne.symm hname)] at hv
        exact hv
      have hmem : v.name ∈ bs.map (·.2.name) := by
        obtain ⟨l₁, l₂, rfl, -⟩ := List.lookup_eq_some_iff.mp hrest
        exact List.mem_map_of_mem (List.mem_append_right l₁ List.mem_cons_self)
      have hne : b.2.name ≠ v.name := by
        intro heq
        exact hdistinct.1 (heq ▸ hmem)
      rw [Tick.entry, if_neg hname, ih hrest hdistinct.2, Tick.entry,
        Tick.held_set_of_ne hne]
      rfl

end Sees

/-! ## Names of a function -/

theorem not_hasVariableMark_of_isOrdinary {name : String} (h : isOrdinary name = true) :
    hasVariableMark name = false := by
  rw [isOrdinary, Bool.and_eq_true, Bool.not_eq_true'] at h
  exact h.2

theorem ne_outputName_of_isOrdinary {name : String} (h : isOrdinary name = true) :
    name ≠ outputName := by
  rw [isOrdinary, Bool.and_eq_true, decide_eq_true_eq] at h
  exact h.1

namespace Function

variable {f : Function}

/-- What the process of a function meets in a tick. -/
def surroundings (f : Function) (m : Meaning V) (signals : String → V) : Surroundings V :=
  f.process.surroundings m signals

theorem isVariable_iff {m : Meaning V} {signals : String → V} {name : String} :
    (f.surroundings m signals).isVariable name = true ↔
      ∃ v, some v ∈ f.declaredVariables ∧ v.name = name := by
  have hlocals : f.process.locals = f.declaredVariables.filterMap id := rfl
  rw [surroundings, Process.surroundings]
  dsimp only
  rw [hlocals, List.any_eq_true]
  simp only [List.mem_filterMap, id_eq, exists_eq_right, decide_eq_true_eq]

/-- A name without the mark is that of a signal or of an input. -/
theorem isVariable_eq_false {m : Meaning V} {signals : String → V} {name : String}
    (h : hasVariableMark name = false) : (f.surroundings m signals).isVariable name = false := by
  rw [← Bool.not_eq_true, isVariable_iff]
  rintro ⟨v, hv, rfl⟩
  have hmark := hasVariableMark_variableName v.source v.ordinal
  rw [← (f.holds_of_mem hv).named, h] at hmark
  cases hmark

theorem lookup_inputs {signals : String → V} {name : String} (h : name ∈ f.paramNames) :
    (f.inputs signals).lookup name = some (signals name) := by
  unfold paramNames at h
  unfold inputs
  generalize f.params = ps at h
  induction ps with
  | nil => cases h
  | cons p ps ih =>
    rw [List.map_cons, List.lookup_cons]
    by_cases hname : name = p.name
    · rw [hname, beq_self_eq_true]
    · rw [beq_eq_false_iff_ne.mpr hname]
      exact ih (List.mem_of_ne_of_mem hname h)

theorem Plain.isOrdinary_of_mem (plain : f.Plain) {d : Declaration} (h : d ∈ f.declarations) :
    isOrdinary d.name = true :=
  List.all_eq_true.mp plain.locals d h

theorem Plain.unmarked (plain : f.Plain) : ∀ d ∈ f.declarations, hasVariableMark d.name = false :=
  fun _ hd => not_hasVariableMark_of_isOrdinary (plain.isOrdinary_of_mem hd)

theorem Plain.hidesOutput_eq_false (plain : f.Plain) : f.hidesOutput = false := by
  rw [hidesOutput, List.any_eq_false]
  intro d hd
  have hname := ne_outputName_of_isOrdinary (plain.isOrdinary_of_mem hd)
  rw [Declaration.hidesOutput, decide_eq_false hname, Bool.and_false]
  exact Bool.false_ne_true

end Function

/-! ## States of the lowering -/

/-- A state on the way through a function: each name that is bound has a variable of its own, which
is one of those declared so far. -/
structure Lowering.Sound (f : Function) (s : Lowering) : Prop where
  declared : s.naming.declared = f.declaredVariables
  holdsResult : s.naming.holdsResult = false
  seen : ∀ b ∈ s.naming.bindings, some b.2 ∈ f.declaredVariables.take s.seen
  distinct : (s.naming.bindings.map (·.2.name)).Nodup

/-- The names in scope. -/
def Naming.visible (f : Function) (n : Naming) : Visible := ⟨f.paramNames, n.bindings.map (·.1)⟩

namespace Lowering.Sound

variable {f : Function} {s : Lowering}

theorem isVariable (sound : s.Sound f) {m : Meaning V} {signals : String → V} {name : String}
    {v : ProcessVariable} (h : s.naming.bindings.lookup name = some v) :
    (f.surroundings m signals).isVariable v.name = true := by
  obtain ⟨l₁, l₂, hbindings, -⟩ := List.lookup_eq_some_iff.mp h
  have hmem := sound.seen (name, v) (hbindings ▸ List.mem_append_right l₁ List.mem_cons_self)
  exact Function.isVariable_iff.mpr ⟨v, List.mem_of_mem_take hmem, rfl⟩

/-- Declarations that leave no name behind change nothing but the count. -/
theorem skip (sound : s.Sound f) (count : Nat) : Sound f ⟨s.naming, s.seen + count⟩ := by
  refine ⟨sound.declared, sound.holdsResult, ?_, sound.distinct⟩
  intro b hb
  exact (List.take_prefix_take_left (Nat.le_add_right _ _)).subset (sound.seen b hb)

theorem name_not_mem (plain : f.Plain) (sound : s.Sound f) {v : ProcessVariable}
    (hv : f.declaredVariables[s.seen]? = some (some v)) :
    v.name ∉ s.naming.bindings.map (·.2.name) := by
  intro hmem
  obtain ⟨b, hb, hname⟩ := List.mem_map.mp hmem
  exact f.name_ne_of_mem_take plain.unmarked hv (sound.seen b hb) hname

theorem bindVariable (plain : f.Plain) (sound : s.Sound f) {v : ProcessVariable}
    (hv : f.declaredVariables[s.seen]? = some (some v)) :
    Sound f ⟨s.naming.bindVariable v, s.seen + 1⟩ := by
  have hextends := Naming.Extends.bindVariable s.naming v
  refine ⟨hextends.declared_eq.trans sound.declared,
    hextends.holdsResult_eq.trans sound.holdsResult, ?_, ?_⟩
  · intro b hb
    rw [Naming.bindings_bindVariable] at hb
    rcases List.mem_cons.mp hb with rfl | hb
    · obtain ⟨hlt, hget⟩ := List.getElem?_eq_some_iff.mp hv
      rw [← hget]
      exact List.mem_take_iff_getElem.mpr ⟨s.seen, by dsimp only; omega, rfl⟩
    · exact (sound.skip 1).seen b hb
  · rw [Naming.bindings_bindVariable, List.map_cons, List.nodup_cons]
    exact ⟨sound.name_not_mem plain hv, sound.distinct⟩

end Lowering.Sound

/-! ## Steps -/

section Steps

variable {f : Function} {m : Meaning V} {signals : String → V} {s : Lowering} {t : Tick V}
  {stack : Stack V}

theorem Sees.read (plain : f.Plain) (sound : s.Sound f)
    (h : Sees (f.inputs signals) s.naming t stack) {name : String}
    (hname : (s.naming.visible f).has name = true) :
    ∃ v, stack.lookup name = some v ∧
      (f.surroundings m signals).read t (s.naming.nameOf name) = some v := by
  cases hv : s.naming.bindings.lookup name with
  | some v =>
    refine ⟨t.held v.name, ?_, ?_⟩
    · rw [h, List.lookup_append, Tick.lookup_map_entry, hv]
      rfl
    · rw [Naming.nameOf, Naming.resolve_eq_lookup, hv, Surroundings.read]
      dsimp only
      rw [if_pos (sound.isVariable hv)]
  | none =>
    have hlocal := lookup_eq_none_iff_not_mem.mp hv
    have hparam : name ∈ f.paramNames := by
      rw [Visible.has, Bool.or_eq_true, List.contains_iff_mem, List.contains_iff_mem] at hname
      exact hname.resolve_left hlocal
    have hnameOf : s.naming.nameOf name = name := by
      rw [Naming.nameOf, Naming.resolve_eq_lookup, hv]
      dsimp only
      split
      · next houtput => rw [Naming.resultTarget, sound.holdsResult, houtput]; rfl
      · rfl
    have hmark := not_hasVariableMark_of_isOrdinary (List.all_eq_true.mp plain.params name hparam)
    refine ⟨signals name, ?_, ?_⟩
    · rw [h, List.lookup_append, Tick.lookup_map_entry, hv, Function.lookup_inputs hparam]
      rfl
    · rw [hnameOf, Surroundings.read, Function.isVariable_eq_false hmark]
      rfl

theorem Sees.value (plain : f.Plain) (sound : s.Sound f)
    (h : Sees (f.inputs signals) s.naming t stack) {e : Expr}
    (he : e.readsOnly (s.naming.visible f).has = true) :
    ∃ v, e.value m (stack.lookup ·) = .ok v ∧
      (e.resolve s.naming).value m ((f.surroundings m signals).read t) = .ok v :=
  Expr.value_rename (fun _ hn => h.read plain sound hn) e he

theorem Sees.holds (plain : f.Plain) (sound : s.Sound f)
    (h : Sees (f.inputs signals) s.naming t stack) {e : Expr}
    (he : e.readsOnly (s.naming.visible f).has = true) :
    ∃ b, e.holds m (stack.lookup ·) = .ok b ∧
      (e.resolve s.naming).holds m ((f.surroundings m signals).read t) = .ok b := by
  obtain ⟨v, hv, hv'⟩ := h.value (m := m) plain sound he
  refine ⟨m.truth v, ?_, ?_⟩
  · rw [Expr.holds, hv]
    rfl
  · rw [Expr.holds, hv']
    rfl

theorem Assignment.exec_lower (plain : f.Plain) (sound : s.Sound f)
    (h : Sees (f.inputs signals) s.naming t stack) {a : Assignment}
    (ha : a.isPlain (s.naming.visible f) = true) (bound : Nat) :
    ∃ stack' t', a.exec m stack = .ok stack' ∧
      (a.lower s.naming).exec (f.surroundings m signals) bound t = .ok (none, t') ∧
      Sees (f.inputs signals) s.naming t' stack' ∧ t'.driven = t.driven := by
  obtain ⟨name, htarget, hname, hreads⟩ := usesOnly_iff.mp ha
  obtain ⟨v, hv⟩ : ∃ v, s.naming.bindings.lookup name = some v := by
    apply Option.ne_none_iff_exists'.mp
    intro hnone
    exact lookup_eq_none_iff_not_mem.mp hnone (List.contains_iff_mem.mp hname)
  obtain ⟨value, hvalue, hvalue'⟩ := h.value (m := m) plain sound hreads
  obtain ⟨stack', hset, hsees⟩ := h.set hv sound.distinct value
  refine ⟨stack', t.set v.name value, ?_, ?_, hsees, rfl⟩
  · rw [exec, htarget]
    dsimp only
    rw [hvalue]
    exact congrArg Run.ofOption hset
  · rw [lower, htarget]
    dsimp only
    rw [Naming.resolve_eq_lookup, hv]
    dsimp only
    rw [Sequential.exec, Surroundings.assign, if_pos (sound.isVariable hv)]
    rw [show (f.surroundings m signals).meaning = m from rfl, hvalue']
    rfl

/-- The variable that a declaration binds. -/
theorem Declaration.exists_lower_eq (plain : f.Plain) (sound : s.Sound f) {d : Declaration}
    (hplace : f.declarations[s.seen]? = some d) {names : Visible} (hd : d.isPlain names = true) :
    ∃ v init, f.declaredVariables[s.seen]? = some (some v) ∧ v.source = d.name ∧
      d.form = .scalar (some init) ∧ init.readsOnly names.has = true ∧
      d.lower s = ([.setVariable v.name (init.resolve s.naming)],
        ⟨s.naming.bindVariable v, s.seen + 1⟩) := by
  obtain ⟨init, hform, hinit⟩ := isPlain_iff.mp hd
  have hname := ne_outputName_of_isOrdinary (plain.isOrdinary_of_mem (List.mem_of_getElem? hplace))
  have hvar : d.hasVariable = true := by
    rw [hasVariable, isArray, hform, decide_eq_true hname]
    rfl
  obtain ⟨v, hv, hsource⟩ : ∃ v, f.declaredVariables[s.seen]? = some (some v) ∧
      v.source = d.name := f.exists_variablesOf_eq hplace hvar
  refine ⟨v, init, hv, hsource, hform, hinit, ?_⟩
  have hdeclared : s.naming.declared[s.seen]? = some (some v) := by
    rw [sound.declared]
    exact hv
  rw [lower, hform]
  dsimp only
  rw [Naming.bind, hdeclared]
  rfl

theorem Declaration.sound_lower (plain : f.Plain) (sound : s.Sound f) {d : Declaration}
    (hplace : f.declarations[s.seen]? = some d) (hd : d.isPlain (s.naming.visible f) = true) :
    (d.lower s).2.Sound f ∧
      (d.lower s).2.naming.visible f = (s.naming.visible f).add [d] := by
  obtain ⟨v, init, hv, hsource, -, -, heq⟩ := exists_lower_eq plain sound hplace hd
  rw [heq]
  refine ⟨sound.bindVariable plain hv, ?_⟩
  rw [Naming.visible, Naming.bindings_bindVariable, List.map_cons, hsource]
  rfl

theorem Declaration.exec_lower (plain : f.Plain) (sound : s.Sound f)
    (h : Sees (f.inputs signals) s.naming t stack) {d : Declaration}
    (hplace : f.declarations[s.seen]? = some d) (hd : d.isPlain (s.naming.visible f) = true)
    (bound : Nat) :
    ∃ stack' t', d.exec m stack = .ok stack' ∧
      Sequential.execList (f.surroundings m signals) bound (d.lower s).1 t = .ok (none, t') ∧
      Sees (f.inputs signals) (d.lower s).2.naming t' stack' ∧ t'.driven = t.driven := by
  obtain ⟨v, init, hv, hsource, hform, hinit, heq⟩ := exists_lower_eq plain sound hplace hd
  obtain ⟨value, hvalue, hvalue'⟩ := h.value (m := m) plain sound hinit
  have hisVariable : (f.surroundings m signals).isVariable v.name = true :=
    Function.isVariable_iff.mpr ⟨v, List.mem_of_getElem? hv, rfl⟩
  refine ⟨(d.name, value) :: stack, t.set v.name value, ?_, ?_, ?_, rfl⟩
  · rw [exec, hform]
    dsimp only
    rw [hvalue]
    rfl
  · rw [heq, Sequential.execList_singleton, Sequential.exec, Surroundings.assign,
      if_pos hisVariable]
    rw [show (f.surroundings m signals).meaning = m from rfl, hvalue']
    rfl
  · rw [heq, ← hsource]
    exact h.bindVariable (sound.name_not_mem plain hv) value

end Steps

end ClockedC
