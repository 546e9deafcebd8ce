import ClockedC.Proofs.Simulation

/-!
# What a tick drives

A tick of the process of a plain function drives the result of the function onto the output, and it
drives the values that the names of the outermost body are left with onto their signals.

* `execList_copyIn` and `execList_copyOut` are what happens around the statements of the function.
* `Block.opensWith` says that of several declarations of a name the first is not a nested one.
* `Function.Drives` relates the answer of a run to what a tick has driven.
* `Function.tick_follows_run` is the whole.
-/

namespace ClockedC

variable {V : Type}

/-! ## Around the statements -/

section

variable {f : Function} {m : Meaning V} {signals : String → V} {bound : Nat}

/-- Taking over the values of signals and inputs drives nothing. -/
theorem execList_copyIn {vs : List ProcessVariable}
    (hvs : ∀ v ∈ vs, some v ∈ f.declaredVariables) (t : Tick V) :
    ∃ t', Sequential.execList (f.surroundings m signals) bound
        (vs.map ProcessVariable.copyIn) t = .ok (none, t') ∧ t'.driven = t.driven := by
  induction vs generalizing t with
  | nil => exact ⟨t, by rw [List.map_nil, Sequential.execList]; rfl, rfl⟩
  | cons v vs ih =>
    have hv : (f.surroundings m signals).isVariable v.name = true :=
      Function.isVariable_iff.mpr ⟨v, hvs v List.mem_cons_self, rfl⟩
    rw [List.map_cons, ProcessVariable.copyIn, Sequential.execList, Sequential.exec,
      Surroundings.assign, if_pos hv]
    exact ih (fun w hw => hvs w (List.mem_cons_of_mem v hw)) _

/-- Writing back drives the value of each variable that has a signal. -/
theorem execList_copyOut (plain : f.Plain) {vs : List ProcessVariable}
    (hvs : ∀ v ∈ vs, some v ∈ f.declaredVariables) (t : Tick V) :
    Sequential.execList (f.surroundings m signals) bound
        (vs.filterMap ProcessVariable.copyOut?) t =
      .ok (none, ⟨t.held, ((vs.filter ProcessVariable.isWrittenBack).map
        fun v => (v.source, t.held v.name)).reverse ++ t.driven⟩) := by
  induction vs generalizing t with
  | nil => rw [List.filterMap_nil, Sequential.execList]; rfl
  | cons v vs ih =>
    have hmem := hvs v List.mem_cons_self
    have hv : (f.surroundings m signals).isVariable v.name = true :=
      Function.isVariable_iff.mpr ⟨v, hmem, rfl⟩
    have hsource : (f.surroundings m signals).isVariable v.source = false := by
      obtain ⟨d, hd, -, hname⟩ := (f.holds_of_mem hmem).declared
      exact Function.isVariable_eq_false (hname ▸ plain.unmarked d hd)
    have hrest := ih fun w hw => hvs w (List.mem_cons_of_mem v hw)
    by_cases hback : v.isWrittenBack = true
    · rw [List.filterMap_cons, ProcessVariable.copyOut?, if_pos hback, List.filter_cons,
        if_pos hback]
      dsimp only
      rw [Sequential.execList, Sequential.exec, Surroundings.drive, hsource]
      have hread : (f.surroundings m signals).read t v.name = some (t.held v.name) := by
        rw [Surroundings.read, if_pos hv]
      rw [Expr.value, hread]
      refine (hrest (t.drive v.source (t.held v.name))).trans ?_
      rw [List.map_cons, List.reverse_cons, List.append_assoc]
      rfl
    · rw [List.filterMap_cons, ProcessVariable.copyOut?, if_neg hback, List.filter_cons,
        if_neg hback]
      exact hrest t

end

/-! ## The first declaration of a name -/

/-- Whether the first declaration of a name in a body is one of the body itself, and not of a nested
one. -/
def Block.opensWith (name : String) : List Stmt → Bool
  | [] => false
  | s :: ss =>
    s.ownDeclarations.any (fun d => d.name = name) ||
      !s.declarations.any (fun d => d.name = name) && Block.opensWith name ss

/-- The first variable of a name. -/
def firstVariable? (name : String) (vs : List (Option ProcessVariable)) : Option ProcessVariable :=
  (vs.filterMap id).find? fun v => v.source = name

theorem firstVariable?_cons_of_eq {name : String} {v : ProcessVariable} (h : v.source = name)
    (vs : List (Option ProcessVariable)) : firstVariable? name (some v :: vs) = some v := by
  unfold firstVariable?
  exact List.find?_cons_of_pos (by simpa using h)

theorem firstVariable?_append {name : String} {vs vs' : List (Option ProcessVariable)}
    (h : ∀ v, some v ∈ vs → v.source ≠ name) :
    firstVariable? name (vs ++ vs') = firstVariable? name vs' := by
  have hnone : (vs.filterMap id).find? (fun v => decide (v.source = name)) = none := by
    rw [List.find?_eq_none]
    intro v hv
    obtain ⟨o, ho, rfl⟩ := List.mem_filterMap.mp hv
    simpa using h v ho
  rw [firstVariable?, List.filterMap_append, List.find?_append, hnone, Option.none_or]
  rfl

theorem Stmt.ownDeclarations_subset (stmt : Stmt) : stmt.ownDeclarations ⊆ stmt.declarations := by
  cases stmt with
  | declare d => exact List.Subset.refl _
  | _ => exact List.nil_subset _

section

variable {f : Function} {c : LoopContext}

/-- What a statement declares has the variables at its place. -/
theorem Ready.source_ne {s : Lowering} {ds ds' : List Declaration} {name : String}
    (h : Ready f c s (ds ++ ds')) (hds : ∀ d ∈ ds, d.name ≠ name) :
    ∀ v, some v ∈ (f.declaredVariables.drop s.seen).take ds.length → v.source ≠ name := by
  intro v hv
  obtain ⟨i, hi, hget⟩ := List.mem_take_iff_getElem.mp hv
  have hdeclared : f.declaredVariables[s.seen + i]? = some (some v) := by
    rw [← List.getElem?_drop, List.getElem?_eq_getElem (by omega), hget]
  obtain ⟨d, hd, hname⟩ := f.declaration_of_getElem? hdeclared
  obtain ⟨after, hafter⟩ := h.place
  have hmem : d ∈ ds := by
    rw [← List.getElem?_drop] at hd
    change (f.declarations.drop s.seen)[i]? = some d at hd
    rw [← hafter, List.append_assoc, List.getElem?_append_left (by omega)] at hd
    exact List.mem_of_getElem? hd
  rw [← hname]
  exact hds d hmem

/-- Among what has been bound since a state, the first variable of a name is the first one declared
from there on. -/
def BindsFirst (f : Function) (name : String) (n : Naming) (s : Lowering) : Prop :=
  ∃ inner v, n.bindings = inner ++ s.naming.bindings ∧ inner.reverse.lookup name = some v ∧
    firstVariable? name (f.declaredVariables.drop s.seen) = some v

/-- The declaration of the name binds its variable. -/
theorem BindsFirst.declare (plain : f.Plain) {s : Lowering} {d : Declaration}
    {ds : List Declaration} {n : Naming} (ready : Ready f c s (d :: ds))
    (hplain : d.isPlain (s.naming.visible f) = true)
    (hn : (d.lower s).2.naming.bindings <:+ n.bindings) : BindsFirst f d.name n s := by
  obtain ⟨v, init, hv, hsource, -, -, heq⟩ :=
    Declaration.exists_lower_eq plain ready.sound ready.place_head hplain
  obtain ⟨inner, hinner⟩ := hn
  rw [heq, Naming.bindings_bindVariable] at hinner
  refine ⟨inner ++ [(v.source, v)], v, ?_, ?_, ?_⟩
  · rw [← hinner, List.append_assoc]
    rfl
  · rw [List.reverse_append, hsource, List.reverse_singleton, List.singleton_append,
      List.lookup_cons_self]
  · obtain ⟨hlt, hget⟩ := List.getElem?_eq_some_iff.mp hv
    rw [List.drop_eq_getElem_cons hlt, hget]
    exact firstVariable?_cons_of_eq hsource _

/-- A statement that declares other names only makes no difference. -/
theorem BindsFirst.skip (plain : f.Plain) {s : Lowering} {stmt : Stmt} {ds : List Declaration}
    {name : String} {n : Naming} (ready : Ready f c s (stmt.declarations ++ ds))
    (hplain : stmt.isPlain (s.naming.visible f) = true)
    (hother : ∀ d ∈ stmt.declarations, d.name ≠ name)
    (h : BindsFirst f name n ⟨stmt.namingAfter s, s.seen + stmt.declarations.length⟩) :
    BindsFirst f name n s := by
  obtain ⟨inner, v, hinner, hlookup, hfirst⟩ := h
  obtain ⟨own, hown⟩ := (stmt.extends_namingAfter s).suffix
  have hnames : own.map (·.1) = stmt.ownDeclarations.map Declaration.name := by
    have hlocals := congrArg Visible.locals (Ready.stmt plain ready hplain).2
    rw [Naming.visible, ← hown, List.map_append] at hlocals
    exact List.append_cancel_right hlocals
  have hnone : own.reverse.lookup name = none := by
    rw [lookup_eq_none_iff_not_mem, List.map_reverse, List.mem_reverse, hnames, List.mem_map]
    rintro ⟨d, hd, hname⟩
    exact hother d (stmt.ownDeclarations_subset hd) hname
  refine ⟨inner ++ own, v, ?_, ?_, ?_⟩
  · rw [hinner, List.append_assoc, hown]
  · rw [List.reverse_append, List.lookup_append, hnone, Option.none_or, hlookup]
  · rw [← hfirst, ← List.take_append_drop stmt.declarations.length
      (f.declaredVariables.drop s.seen), firstVariable?_append (ready.source_ne hother),
      List.drop_drop]

/-- Where the first declaration of a name is not nested, its variable is bound first. -/
theorem Block.bindsFirst (plain : f.Plain) {name : String} :
    ∀ (ss : List Stmt) (s : Lowering), Ready f c s (Block.declarations ss) →
      Block.isPlain ss (s.naming.visible f) = true → Block.opensWith name ss = true →
      BindsFirst f name (Block.lower c.increment ss s).2.naming s
  | [], _, _, _, h => by cases h
  | stmt :: ss, s, ready, hplain, h => by
    rw [Block.isPlain, Bool.and_eq_true] at hplain
    rw [Block.declarations] at ready
    rw [Block.opensWith, Bool.or_eq_true, Bool.and_eq_true, Bool.not_eq_true'] at h
    obtain ⟨hnext, hvisible⟩ := Ready.stmt plain ready hplain.1
    have hrest := (Block.lower_snd ss c.increment
      ⟨stmt.namingAfter s, s.seen + stmt.declarations.length⟩).1.suffix
    rw [Block.lower]
    dsimp only
    rw [Stmt.lower_snd]
    rcases h with hown | ⟨hnot, hopens⟩
    · -- only a declaration declares something that is not nested
      cases stmt with
      | declare d =>
        have hname : d.name = name := by simpa [Stmt.ownDeclarations] using hown
        subst hname
        exact BindsFirst.declare plain ready hplain.1 hrest
      | _ => cases hown
    · have hother : ∀ d ∈ stmt.declarations, d.name ≠ name := by
        intro d hd
        simpa using List.any_eq_false.mp hnot d hd
      have hrestPlain := hplain.2
      rw [← hvisible] at hrestPlain
      exact (Block.bindsFirst plain ss _ hnext hrestPlain hopens).skip plain ready hplain.1 hother

end

/-! ## Answers -/

/-- What a tick has driven fits the answer of a run: the result, the values of names whose first
declaration is not nested, and nothing but what belongs to a local. -/
structure Function.Drives (f : Function) (a : Answer V) (driven : List (String × V)) : Prop where
  result : driven.lookup outputName = a.result
  locals : ∀ name, Block.opensWith name f.body = true → f.hasParam name = false →
    ∃ value, a.locals.lookup name = some value ∧ driven.lookup name = some value
  others : ∀ name, name ≠ outputName → driven.lookup name ≠ none →
    (∃ d ∈ f.declarations, d.name = name) ∧ f.hasParam name = false

/-- What is driven by writing back, the latest first. -/
def Process.writtenBack (p : Process) (t : Tick V) : List (String × V) :=
  (p.locals.filter ProcessVariable.isWrittenBack).map fun v => (v.source, t.held v.name)

/-- What is written back to a signal comes from the first variable of its name. -/
theorem lookup_writtenBack {vs : List ProcessVariable} {name : String}
    (hvs : ∀ v ∈ vs, v.source = name → v.isWrittenBack = true) (t : Tick V) :
    ((vs.filter ProcessVariable.isWrittenBack).map fun v => (v.source, t.held v.name)).lookup
        name =
      (vs.find? fun v => v.source = name).map fun v => t.held v.name := by
  induction vs with
  | nil => rfl
  | cons v vs ih =>
    have hrest := ih fun w hw => hvs w (List.mem_cons_of_mem v hw)
    by_cases hname : v.source = name
    · rw [List.filter_cons_of_pos (hvs v List.mem_cons_self hname),
        List.find?_cons_of_pos (by simpa using hname), List.map_cons, hname, List.lookup_cons_self]
      rfl
    · rw [List.find?_cons_of_neg (by simpa using hname), ← hrest, List.filter_cons]
      split
      · rw [List.map_cons, List.lookup_cons, beq_eq_false_iff_ne.mpr (Ne.symm hname)]
      · rfl

namespace Function

variable {f : Function} {m : Meaning V} {signals : String → V}

theorem mem_locals_iff {v : ProcessVariable} :
    v ∈ f.process.locals ↔ some v ∈ f.declaredVariables := by
  have hlocals : f.process.locals = f.declaredVariables.filterMap id := rfl
  rw [hlocals]
  simp only [List.mem_filterMap, id_eq, exists_eq_right]

theorem isWrittenBack_eq {v : ProcessVariable} (hv : v ∈ f.process.locals) :
    v.isWrittenBack = !f.hasParam v.source := by
  rw [ProcessVariable.isWrittenBack, (f.holds_of_mem (mem_locals_iff.mp hv)).hidesParam]

/-- A signal that is written back is that of a local which hides no input. -/
theorem of_mem_writtenBack {t : Tick V} {name : String}
    (h : name ∈ (f.process.writtenBack t).map (·.1)) :
    (∃ d ∈ f.declarations, d.name = name) ∧ f.hasParam name = false := by
  rw [Process.writtenBack, List.map_map, List.mem_map] at h
  obtain ⟨v, hv, rfl⟩ := h
  obtain ⟨hmem, hback⟩ := List.mem_filter.mp hv
  obtain ⟨d, hd, -, hname⟩ := (f.holds_of_mem (mem_locals_iff.mp hmem)).declared
  rw [isWrittenBack_eq hmem, Bool.not_eq_true'] at hback
  exact ⟨⟨d, hd, hname⟩, hback⟩

theorem drives_of_sees (plain : f.Plain) (value : Option V) {n : Naming} {t : Tick V}
    {stack : Stack V} (hsees : Sees (f.inputs signals) n t stack)
    (hfirst : ∀ name, Block.opensWith name f.body = true →
      ∃ v, n.bindings.reverse.lookup name = some v ∧
        f.process.locals.find? (fun v => v.source = name) = some v) :
    f.Drives ⟨value, (stack.take (stack.length - (f.inputs signals).length)).reverse⟩
      (f.process.writtenBack t ++ (value.map (outputName, ·)).toList) := by
  have hlocals : (stack.take (stack.length - (f.inputs signals).length)).reverse =
      n.bindings.reverse.map t.entry := by
    rw [hsees.length_eq, Nat.add_sub_cancel, hsees, List.take_append_of_le_length (by simp),
      List.take_of_length_le (by simp), List.map_reverse]
  rw [hlocals]
  refine ⟨?_, ?_, ?_⟩
  · have hnone : (f.process.writtenBack t).lookup outputName = none := by
      rw [lookup_eq_none_iff_not_mem]
      intro hmem
      obtain ⟨d, hd, hname⟩ := (of_mem_writtenBack hmem).1
      exact ne_outputName_of_isOrdinary (plain.isOrdinary_of_mem hd) hname
    rw [List.lookup_append, hnone, Option.none_or]
    cases value with
    | none => rfl
    | some value => rw [Option.map_some, Option.toList_some, List.lookup_cons_self]
  · intro name hopens hparam
    obtain ⟨v, hv, hv'⟩ := hfirst name hopens
    have hback : ∀ w ∈ f.process.locals, w.source = name → w.isWrittenBack = true := by
      intro w hw hname
      rw [isWrittenBack_eq hw, hname, hparam]
      rfl
    refine ⟨t.held v.name, ?_, ?_⟩
    · rw [Tick.lookup_map_entry, hv]
      rfl
    · rw [List.lookup_append, Process.writtenBack, lookup_writtenBack hback t, hv']
      rfl
  · intro name hne hsome
    have hresult : ((value.map (outputName, ·)).toList).lookup name = none := by
      cases value with
      | none => rfl
      | some value =>
        rw [Option.map_some, Option.toList_some, List.lookup_cons, beq_eq_false_iff_ne.mpr hne]
        rfl
    rw [List.lookup_append, hresult, Option.or_none, ne_eq, lookup_eq_none_iff_not_mem,
      Classical.not_not] at hsome
    exact of_mem_writtenBack hsome

end Function

/-! ## Ticks -/

/-- Two runs give related answers, or they come to a halt in the same way. -/
inductive Agree {α β : Type} (R : α → β → Prop) : Run α → Run β → Prop
  | ok {a : α} {b : β} (h : R a b) : Agree R (.ok a) (.ok b)
  | halted (h : Halt) : Agree R (.error h) (.error h)

section

variable {f : Function} {m : Meaning V} {signals : String → V}

/-- The state that the outermost body starts in. -/
def Function.entry (f : Function) : Lowering := ⟨(Naming.ofFunction f).push, 0⟩

theorem Ready.entry (plain : f.Plain) : Ready f ⟨f.entry, none⟩ f.entry f.declarations := by
  have hsound : f.entry.Sound f := ⟨rfl, plain.hidesOutput_eq_false, nofun, .nil⟩
  exact ⟨hsound, hsound, List.suffix_refl _, nofun, List.prefix_refl _⟩

/-- The statements of the process between taking over and writing back. -/
theorem Function.body_simulates (plain : f.Plain) (bound : Nat) (t : Tick V) :
    Both (Matches f m signals ⟨f.entry, none⟩ (Block.hasReturn f.body) (Block.hasStrayJump f.body)
        (Block.lower none f.body f.entry).2.naming t.driven)
      (Block.exec m bound f.body (f.inputs signals))
      (Sequential.execList (f.surroundings m signals) bound f.process.body t) :=
  Block.simulates plain f.body ⟨f.entry, none⟩ f.entry (Ready.entry plain) plain.inScope
    plain.returns (f.inputs signals) t rfl

theorem Function.lookup_bindings (plain : f.Plain) {name : String}
    (h : Block.opensWith name f.body = true) :
    ∃ v, (Block.lower none f.body f.entry).2.naming.bindings.reverse.lookup name = some v ∧
      f.process.locals.find? (fun v => v.source = name) = some v := by
  obtain ⟨inner, v, hinner, hlookup, hfirst⟩ :=
    Block.bindsFirst plain f.body f.entry (Ready.entry plain) plain.inScope h
  refine ⟨v, ?_, hfirst⟩
  rw [hinner]
  rw [show f.entry.naming.bindings = [] from rfl, List.append_nil, hlookup]

/-- A tick takes over values, runs the statements and writes back, unless the statements jump. -/
theorem Function.execList_clocked (plain : f.Plain) (bound : Nat) (held : String → V) :
    ∃ t : Tick V, t.driven = [] ∧
      Sequential.execList (f.surroundings m signals) bound f.process.clocked ⟨held, []⟩ = (do
        match ← Sequential.execList (f.surroundings m signals) bound f.process.body t with
        | (none, t) => return (none, ⟨t.held, f.process.writtenBack t ++ t.driven⟩)
        | stopped => return stopped) := by
  have hlocals : ∀ v ∈ f.process.locals, some v ∈ f.declaredVariables :=
    fun v hv => mem_locals_iff.mp hv
  obtain ⟨t, hin, hdriven⟩ := execList_copyIn (m := m) hlocals ⟨held, []⟩
  refine ⟨t, hdriven, ?_⟩
  have hout : ∀ t : Tick V, Sequential.execList (f.surroundings m signals) bound
      (f.process.locals.reverse.filterMap ProcessVariable.copyOut?) t =
        .ok (none, ⟨t.held, f.process.writtenBack t ++ t.driven⟩) := by
    intro t
    rw [execList_copyOut plain (fun v hv => hlocals v (List.mem_reverse.mp hv)),
      Process.writtenBack, List.filter_reverse, List.map_reverse, List.reverse_reverse]
  rw [Process.clocked, Sequential.execList_append, Sequential.execList_append, hin]
  simp only [hout]
  rfl

end

/-- The clocked branch of a process is the text of its sequential statements. -/
theorem Process.exists_lines_eq (p : Process) :
    ∃ header, p.lines =
      header ++ "    elsif rising_edge(clk) then" :: Sequential.linesOfList 3 p.clocked ++
        ["    end if;", "  end process;"] := by
  refine ⟨["  process(clk, reset)"] ++
    (p.locals.map fun v => s!"    variable {v.name} : {v.type.vector};") ++
    ["  begin", "    if reset = '1' then", "      -- Reset logic"], ?_⟩
  simp only [lines, List.append_assoc, List.cons_append, List.nil_append]

/-- The text of the process is that of its sequential statements, and these do in a tick what the
function does in a run. -/
theorem Function.tick_follows_run (f : Function) (plain : f.Plain) (m : Meaning V) (bound : Nat)
    (signals held : String → V) :
    (∃ header, f.process.lines =
      header ++ "    elsif rising_edge(clk) then" :: Sequential.linesOfList 3 f.process.clocked ++
        ["    end if;", "  end process;"]) ∧
    Agree f.Drives (f.run m bound signals) (f.process.tick m bound signals held) ∧
    (Block.hasStrayJump f.body = false → f.run m bound signals ≠ .error .stuck) := by
  refine ⟨f.process.exists_lines_eq, ?_⟩
  obtain ⟨t, hdriven, hclocked⟩ : ∃ t : Tick V, t.driven = [] ∧
      Sequential.execList (f.process.surroundings m signals) bound f.process.clocked
        ⟨held, []⟩ = _ := execList_clocked plain bound held
  have hbody : Both _ _ (Sequential.execList (f.surroundings m signals) bound f.process.body t) :=
    body_simulates (m := m) plain bound t
  have hfirst := fun name (h : Block.opensWith name f.body = true) => lookup_bindings plain h
  rw [run, Process.tick, hclocked]
  generalize Block.exec m bound f.body (f.inputs signals) = x at hbody
  generalize Sequential.execList (f.surroundings m signals) bound f.process.body t = y at hbody
  cases hbody with
  | exhausted => exact ⟨.halted .exhausted, fun _ => nofun⟩
  | ok hmatch =>
    cases hmatch with
    | through sees heq =>
      refine ⟨.ok ?_, fun _ => nofun⟩
      rw [heq, hdriven]
      exact drives_of_sees plain none sees hfirst
    | returned may sees heq =>
      refine ⟨.ok ?_, fun _ => nofun⟩
      rw [heq, hdriven, List.append_nil]
      exact drives_of_sees plain _ sees hfirst
    -- Neither side has a meaning for a jump that no loop surrounds.
    | leave may => exact ⟨.halted .stuck, fun hjumps => Bool.noConfusion (hjumps.symm.trans may)⟩
    | again may => exact ⟨.halted .stuck, fun hjumps => Bool.noConfusion (hjumps.symm.trans may)⟩

/-- Adds up the numbers below `n` except 2, as long as the sum stays below 21. The loop and the last
branch have an `i` and a `sum` of their own. -/
def skippingSum : Function :=
  let p : Position := ⟨1, 1⟩
  let int (name : String) (init : Expr) : Declaration := ⟨name, .int, .scalar (some init), p⟩
  let set (name : String) (value : Expr) : Assignment := ⟨.name name, value, p⟩
  ⟨"skipping_sum", .int, [⟨.int, "n"⟩],
    [.declare (int "i" (.number "7")),
      .declare (int "sum" (.number "0")),
      .forLoop (some (.declare (int "i" (.number "0")))) (.binary .lt (.name "i") (.name "n"))
        [.branch (.binary .eq (.name "i") (.number "2")) [.jump .again p] .none p,
          .declare (int "next" (.binary .add (.name "sum") (.name "i"))),
          .branch (.binary .gt (.name "next") (.number "20")) [.jump .leave p] .none p,
          .assign (set "sum" (.name "next"))]
        (some (set "i" (.binary .add (.name "i") (.number "1")))) p,
      .branch (.binary .gt (.name "sum") (.number "3"))
        [.declare (int "sum" (.number "1")),
          .ret (some (.binary .add (.name "sum") (.name "i"))) p]
        (.body [.ret (some (.name "i")) p]) p], p⟩

/-- For the input 5 the sum is 8, and the result is made from the outer `i` and the inner `sum`. -/
theorem skippingSum_tick :
    skippingSum.Plain ∧
    skippingSum.run Meaning.integers 9 (fun _ => 5) = .ok ⟨some 8, [("i", 7), ("sum", 8)]⟩ ∧
    ∃ driven,
      skippingSum.process.tick Meaning.integers 9 (fun _ => 5) (fun _ => 0) = .ok driven ∧
      driven.lookup "result" = some 8 ∧ driven.lookup "i" = some 7 ∧
      driven.lookup "sum" = some 8 ∧ driven.lookup "n" = none := by
  have plain : skippingSum.Plain := by decide
  have hrun : skippingSum.run Meaning.integers 9 (fun _ => 5) =
      .ok ⟨some 8, [("i", 7), ("sum", 8)]⟩ := rfl
  refine ⟨plain, hrun, ?_⟩
  obtain ⟨-, hagree, -⟩ :=
    Function.tick_follows_run skippingSum plain Meaning.integers 9 (fun _ => 5) (fun _ => 0)
  rw [hrun] at hagree
  generalize skippingSum.process.tick Meaning.integers 9 (fun _ => 5) (fun _ => 0) = y at hagree
  cases hagree with
  | @ok _ driven h =>
    obtain ⟨i, hi, hi'⟩ := h.locals "i" (by decide) (by decide)
    obtain ⟨sum, hsum, hsum'⟩ := h.locals "sum" (by decide) (by decide)
    cases hi
    cases hsum
    refine ⟨driven, rfl, h.result, hi', hsum', ?_⟩
    apply Classical.not_not.mp
    intro hn
    have hparam := (h.others "n" (by decide) hn).2
    revert hparam
    decide

end ClockedC
