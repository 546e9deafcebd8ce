import ClockedC.Proofs.LocalSignals
import ClockedC.Proofs.NextRound
import ClockedC.Proofs.ProcessNesting

/-!
# Writing variables back to their signals

At the end of a tick each variable is written to the signal of its name. All declarations of a name
have that one signal, and of several lines that write a signal the last one wins. Here it is said
which declaration this line belongs to: the first one of the source. It is an outermost one unless a
declaration in an inner body comes before all those further out.

* `Block.depths` says how deep the declarations of a body are nested.
* `lastWrite?` finds the last line that writes a signal.
* `Function.lastWrite?_process` says which line of a process that is.
* `Function.writesOutermost_iff` says when it belongs to an outermost declaration.
-/

namespace ClockedC

open Scan (Word)

/-! ## How deep declarations are nested -/

mutual

/-- The count of bodies and loop headers around each declaration of a statement, when there are
`depth` of them around the statement. The header of a loop is outside of its body. -/
def Stmt.depths (depth : Nat) : Stmt → List Nat
  | .declare _ => [depth]
  | .branch _ body otherwise _ => Block.depths (depth + 1) body ++ otherwise.depths depth
  | .whileLoop _ body _ => Block.depths (depth + 1) body
  | .forLoop init _ body _ _ =>
    ((init.map ForStart.declarations).getD []).map (fun _ => depth + 1) ++
      Block.depths (depth + 2) body
  | .assign _ | .ret .. | .jump .. => []

/-- The count of bodies and loop headers around each declaration of an alternative. -/
def Alternative.depths (depth : Nat) : Alternative → List Nat
  | .none => []
  | .body body => Block.depths (depth + 1) body
  | .branch _ body otherwise _ => Block.depths (depth + 1) body ++ otherwise.depths depth

/-- The count of bodies and loop headers around each declaration of a body, that body apart. -/
def Block.depths (depth : Nat) : List Stmt → List Nat
  | [] => []
  | s :: ss => s.depths depth ++ Block.depths depth ss

end

mutual

theorem Stmt.length_depths : ∀ (s : Stmt) (depth : Nat),
    (s.depths depth).length = s.declarations.length
  | .declare _, _ | .assign _, _ | .ret .., _ | .jump .., _ => rfl
  | .branch _ body otherwise _, depth => by
    rw [Stmt.depths, Stmt.declarations, List.length_append, List.length_append,
      Block.length_depths body, Alternative.length_depths otherwise]
  | .whileLoop _ body _, depth => Block.length_depths body (depth + 1)
  | .forLoop init _ body _ _, depth => by
    rw [Stmt.depths, Stmt.declarations, List.length_append, List.length_append, List.length_map,
      Block.length_depths body]

theorem Alternative.length_depths : ∀ (a : Alternative) (depth : Nat),
    (a.depths depth).length = a.declarations.length
  | .none, _ => rfl
  | .body body, depth => Block.length_depths body (depth + 1)
  | .branch _ body otherwise _, depth => by
    rw [Alternative.depths, Alternative.declarations, List.length_append, List.length_append,
      Block.length_depths body, Alternative.length_depths otherwise]

theorem Block.length_depths : ∀ (ss : List Stmt) (depth : Nat),
    (Block.depths depth ss).length = (Block.declarations ss).length
  | [], _ => rfl
  | s :: ss, depth => by
    rw [Block.depths, Block.declarations, List.length_append, List.length_append,
      Stmt.length_depths s, Block.length_depths ss]

end

/-- What is present among some values, each with the number at its place. -/
def presentWith {α : Type} (os : List (Option α)) (ns : List Nat) : List (α × Nat) :=
  (os.zip ns).filterMap fun p => p.1.map fun a => (a, p.2)

theorem map_fst_presentWith {α : Type} {os : List (Option α)} {ns : List Nat}
    (h : os.length = ns.length) : (presentWith os ns).map Prod.fst = os.filterMap id := by
  induction os generalizing ns with
  | nil => rfl
  | cons o os ih =>
    cases ns with
    | nil => cases h
    | cons n ns =>
      have hrest := ih (Nat.succ.inj h)
      unfold presentWith at hrest ⊢
      rw [List.zip_cons_cons]
      cases o with
      | none => rw [List.filterMap_cons_none (by rfl), List.filterMap_cons_none (by rfl), hrest]
      | some a =>
        rw [List.filterMap_cons_some (by rfl), List.filterMap_cons_some (by rfl), List.map_cons,
          hrest]

namespace Function

variable (f : Function)

/-- The variables of a function, each with the depth at which its declaration is nested. -/
def nestedVariables : List (ProcessVariable × Nat) :=
  presentWith f.declaredVariables (Block.depths 0 f.body)

/-- The variables of all declarations of a name, in the order of the source and each with the depth
at which its declaration is nested. -/
def variablesNamed (name : String) : List (ProcessVariable × Nat) :=
  f.nestedVariables.filter fun p => p.1.source = name

theorem map_fst_nestedVariables : f.nestedVariables.map Prod.fst = f.process.locals := by
  apply map_fst_presentWith
  rw [declaredVariables, length_variablesOf, Block.length_depths, declarations]

theorem map_fst_variablesNamed (name : String) :
    (f.variablesNamed name).map Prod.fst = f.process.locals.filter fun v => v.source = name := by
  rw [← map_fst_nestedVariables, List.filter_map]
  rfl

theorem mem_locals_of_mem_variablesNamed {name : String} {p : ProcessVariable × Nat}
    (h : p ∈ f.variablesNamed name) : p.1 ∈ f.process.locals ∧ p.1.source = name := by
  have hmem : p.1 ∈ f.process.locals.filter fun v => v.source = name := by
    rw [← map_fst_variablesNamed]
    exact List.mem_map_of_mem h
  obtain ⟨hlocal, hname⟩ := List.mem_filter.1 hmem
  exact ⟨hlocal, of_decide_eq_true hname⟩

/-- Of two variables of a name, that of the earlier declaration has the lower count. -/
theorem variablesNamed_ordered (name : String) :
    (f.variablesNamed name).Pairwise fun p q => p.1.ordinal < q.1.ordinal := by
  have hlocals : f.process.locals.Pairwise fun v w => v.source = w.source →
      v.ordinal < w.ordinal := by
    show (f.declaredVariables.filterMap id).Pairwise _
    rw [List.pairwise_filterMap]
    refine (f.variablesOf_ordered [] f.declarations).imp ?_
    intro o o' h v hv w hw
    exact h v hv w hw
  have hnamed : ((f.variablesNamed name).map Prod.fst).Pairwise fun v w => v.source = w.source →
      v.ordinal < w.ordinal := by
    rw [map_fst_variablesNamed]
    exact hlocals.filter _
  refine (List.pairwise_map.1 hnamed).imp_of_mem ?_
  intro p q hp hq h
  apply h
  rw [(f.mem_locals_of_mem_variablesNamed hp).2, (f.mem_locals_of_mem_variablesNamed hq).2]

end Function

/-! ## Lines that write a signal -/

/-- The signal that a line writes: what stands before the arrow, blanks at the front left out. -/
def writtenSignal? (line : String) : Option String :=
  let text := (withoutIndent line).toList
  if " <= ".toList.isPrefixOf (text.dropWhile (· != ' ')) then
    some (String.ofList (text.takeWhile (· != ' ')))
  else none

/-- The last of some lines that write a signal. -/
def lastWrite? (name : String) (lines : List String) : Option String :=
  (lines.filter fun line => writtenSignal? line = some name).getLast?

theorem writtenSignal?_indented {name : String} (h : Word name.toList) (depth : Nat)
    (rest : String) : writtenSignal? (indented depth (name ++ (" <= " ++ rest))) = some name := by
  have hflush : isFlush (name ++ (" <= " ++ rest)) = true := isFlush_append _ (isFlush_of_word h)
  have hblank : ∀ c ∈ name.toList, (c != ' ') = true := by
    intro c hc
    have hcontinues := List.all_eq_true.1 h.all_continuesName c hc
    apply bne_iff_ne.2
    rintro rfl
    exact absurd hcontinues (by decide)
  have harrow : " <= ".toList = [' ', '<', '=', ' '] := by decide
  rw [writtenSignal?, withoutIndent, (takeWhile_indented hflush depth).2, String.ofList_toList,
    String.toList_append, String.toList_append, harrow, List.dropWhile_append_of_pos hblank,
    List.takeWhile_append_of_pos hblank]
  simp

/-- Writes the value that a variable ends a tick with. -/
def ProcessVariable.copyOutLine (v : ProcessVariable) : String :=
  s!"      {v.source} <= {v.name};"

theorem ProcessVariable.writtenSignal?_copyOutLine {v : ProcessVariable}
    (h : Word v.source.toList) : writtenSignal? v.copyOutLine = some v.source := by
  have hline : v.copyOutLine = indented 3 (v.source ++ (" <= " ++ (v.name ++ ";"))) := by
    show "      " ++ v.source ++ " <= " ++ v.name ++ ";" = _
    simp only [indented_three, String.append_assoc]
  rw [hline, writtenSignal?_indented h]

/-- The lines of a process end with the lines that write variables back, in reverse order. -/
theorem Process.exists_lines_copyOut (p : Process) :
    ∃ front, p.lines = front ++
      (p.locals.filter ProcessVariable.isWrittenBack).reverse.map ProcessVariable.copyOutLine ++
        ["    end if;", "  end process;"] := by
  apply Exists.intro
  rw [lines, linesOfList_clocked, ← List.append_assoc, ← List.append_assoc]
  rfl

theorem filter_map_of_eq {α β : Type} {g : α → β} {p : β → Bool} {q : α → Bool} {l : List α}
    (h : ∀ a ∈ l, p (g a) = q a) : (l.map g).filter p = (l.filter q).map g := by
  rw [List.filter_map]
  exact congrArg (List.map g) (List.filter_congr h)

namespace Function

variable {f : Function} {name : String}

theorem word_of_mem_locals (h : f.FromSource) {v : ProcessVariable} (hv : v ∈ f.process.locals) :
    Word v.source.toList := by
  obtain ⟨d, hd, -, hname⟩ := (f.holds_of_mem (f.mem_allVariables.1 hv)).declared
  rw [← hname]
  exact h.wellSpelled.names d hd

/-- A variable has a signal unless its name is that of a parameter. -/
theorem isWrittenBack_of_mem_locals {v : ProcessVariable} (hv : v ∈ f.process.locals) :
    v.isWrittenBack = !f.hasParam v.source := by
  rw [ProcessVariable.isWrittenBack, (f.holds_of_mem (f.mem_allVariables.1 hv)).hidesParam]

/-- All variables of a name have a signal if one of them has. -/
theorem filter_isWrittenBack (hback : f.hasParam name = false) :
    (f.process.locals.filter ProcessVariable.isWrittenBack).filter (fun v => v.source = name) =
      (f.variablesNamed name).map Prod.fst := by
  rw [map_fst_variablesNamed, List.filter_filter]
  apply List.filter_congr
  intro v hv
  by_cases hname : v.source = name
  · rw [isWrittenBack_of_mem_locals hv, hname, hback]
    exact Bool.and_true _
  · simp [hname]

/-- Of the lines that write variables back, those for a name stand in the reverse order of its
declarations. -/
theorem filter_copyOutLine (h : f.FromSource) (hback : f.hasParam name = false) :
    ((f.process.locals.filter ProcessVariable.isWrittenBack).reverse.map
      ProcessVariable.copyOutLine).filter (fun line => writtenSignal? line = some name) =
    ((f.variablesNamed name).map fun p => p.1.copyOutLine).reverse := by
  have hsignal : ∀ v ∈ f.process.locals.filter ProcessVariable.isWrittenBack,
      decide (writtenSignal? v.copyOutLine = some name) = decide (v.source = name) := by
    intro v hv
    have hword := word_of_mem_locals h (List.mem_filter.1 hv).1
    simp only [ProcessVariable.writtenSignal?_copyOutLine hword, Option.some.injEq]
  have hfilter : ((f.process.locals.filter ProcessVariable.isWrittenBack).map
      ProcessVariable.copyOutLine).filter (fun line => writtenSignal? line = some name) =
      ((f.variablesNamed name).map Prod.fst).map ProcessVariable.copyOutLine := by
    rw [← filter_isWrittenBack hback]
    exact filter_map_of_eq hsignal
  rw [List.map_reverse, List.filter_reverse, hfilter, List.map_map]
  rfl

theorem filter_lastLines (name : String) :
    ["    end if;", "  end process;"].filter (fun line => writtenSignal? line = some name) =
      [] := by
  have hbranch : writtenSignal? "    end if;" = none := by decide
  have hprocess : writtenSignal? "  end process;" = none := by decide
  simp only [List.filter_cons, hbranch, hprocess, reduceCtorEq, decide_false, List.filter_nil,
    Bool.false_eq_true, if_false]

/-- The last line that writes the signal of a name belongs to the first declaration of it. -/
theorem lastWrite?_process (h : f.FromSource) (hback : f.hasParam name = false)
    {first : ProcessVariable × Nat} {rest : List (ProcessVariable × Nat)}
    (hvars : f.variablesNamed name = first :: rest) :
    lastWrite? name f.process.lines = some first.1.copyOutLine := by
  obtain ⟨front, hlines⟩ := f.process.exists_lines_copyOut
  rw [lastWrite?, hlines, List.filter_append, List.filter_append, filter_copyOutLine h hback,
    filter_lastLines, List.append_nil, hvars, List.map_cons, List.reverse_cons,
    ← List.append_assoc, List.getLast?_concat]

/-- The last line that writes the signal of a name belongs to a declaration that no other one of
that name is further out than. -/
def WritesOutermost (f : Function) (name : String) : Prop :=
  ∃ p ∈ f.variablesNamed name, (∀ q ∈ f.variablesNamed name, p.2 ≤ q.2) ∧
    lastWrite? name f.process.lines = some p.1.copyOutLine

/-- The lines of two variables of a name differ. -/
theorem copyOutLine_ne {p q : ProcessVariable × Nat} (hp : p ∈ f.variablesNamed name)
    (hq : q ∈ f.variablesNamed name) (hlt : p.1.ordinal < q.1.ordinal) :
    q.1.copyOutLine ≠ p.1.copyOutLine := by
  intro heq
  obtain ⟨hplocal, hpname⟩ := f.mem_locals_of_mem_variablesNamed hp
  obtain ⟨hqlocal, hqname⟩ := f.mem_locals_of_mem_variablesNamed hq
  have hvariable : q.1.name = p.1.name := by
    have hlist := congrArg String.toList heq
    simp only [ProcessVariable.copyOutLine, hpname, hqname, String.toList_append] at hlist
    exact String.ext (List.append_cancel_left (List.append_cancel_right hlist))
  rw [(f.holds_of_mem (f.mem_allVariables.1 hplocal)).named,
    (f.holds_of_mem (f.mem_allVariables.1 hqlocal)).named, hpname, hqname] at hvariable
  have hordinal := variableName_right_inj hvariable
  omega

/-- **When the outermost value is kept.** Take a name of a function of a source that has a variable
with a signal. The last line that writes the signal writes the variable of the first declaration of
that name. It belongs to an outermost declaration if and only if none of the later declarations of
the name is further out than the first. -/
theorem writesOutermost_iff (h : f.FromSource)
    (hvar : ∃ p ∈ f.variablesNamed name, p.1.isWrittenBack = true) :
    ∃ first rest, f.variablesNamed name = first :: rest ∧
      lastWrite? name f.process.lines = some first.1.copyOutLine ∧
      (f.WritesOutermost name ↔ ∀ q ∈ rest, first.2 ≤ q.2) := by
  obtain ⟨p, hp, hback⟩ := hvar
  have hparam : f.hasParam name = false := by
    obtain ⟨hlocal, hname⟩ := f.mem_locals_of_mem_variablesNamed hp
    rw [isWrittenBack_of_mem_locals hlocal, hname, Bool.not_eq_true'] at hback
    exact hback
  obtain ⟨first, rest, hvars⟩ := List.exists_cons_of_ne_nil (List.ne_nil_of_mem hp)
  have hlast := lastWrite?_process h hparam hvars
  have hordered := f.variablesNamed_ordered name
  rw [hvars, List.pairwise_cons] at hordered
  refine ⟨first, rest, hvars, hlast, ?_, ?_⟩
  · rintro ⟨q, hq, hleast, hline⟩
    -- The line names the variable, and the variables of one name are told apart by their counts.
    have hfirst : q = first := by
      rw [hvars] at hq
      rcases List.mem_cons.1 hq with heq | hrest
      · exact heq
      · have hmem : first ∈ f.variablesNamed name := hvars ▸ List.mem_cons_self
        have hmem' : q ∈ f.variablesNamed name := hvars ▸ List.mem_cons_of_mem _ hrest
        have heq := Option.some.inj (hline.symm.trans hlast)
        exact absurd heq (copyOutLine_ne hmem hmem' (hordered.1 q hrest))
    subst hfirst
    intro r hr
    exact hleast r (hvars ▸ List.mem_cons_of_mem _ hr)
  · intro hleast
    refine ⟨first, hvars ▸ List.mem_cons_self, ?_, hlast⟩
    intro q hq
    rw [hvars] at hq
    rcases List.mem_cons.1 hq with rfl | hrest
    · exact Nat.le_refl _
    · exact hleast q hrest

end Function

/-- The outer `x` is declared first, and its line is the last of the two. -/
theorem writesOutermost_iff_outer_first :
    let x (init : Expr) (column : Nat) : Declaration :=
      ⟨"x", .int, .scalar (some init), ⟨1, column⟩⟩
    let f : Function := ⟨"f", .int, [⟨.int, "n"⟩],
      [.declare (x (.number "2") 16), .branch (.name "n") [.declare (x (.number "1") 36)] .none
        ⟨1, 27⟩, .ret (some (.name "x")) ⟨1, 49⟩], ⟨1, 5⟩⟩
    f.FromSource ∧
    f.variablesNamed "x" = [(⟨"x", "x_v", .int, 0, false⟩, 0), (⟨"x", "x_v1", .int, 1, false⟩, 1)] ∧
    lastWrite? "x" f.process.lines = some "      x <= x_v;" ∧ f.WritesOutermost "x" := by
  intro x f
  have hread : (Program.ofSource
      "int f(int n) { int x = 2; if (n) { int x = 1; } return x; }").outcome = .ok ⟨[f]⟩ := by
    with_unfolding_all rfl
  have hsource : f.FromSource := ⟨_, _, .inl hread, List.mem_singleton_self f⟩
  have hvars : f.variablesNamed "x" =
      [(⟨"x", "x_v", .int, 0, false⟩, 0), (⟨"x", "x_v1", .int, 1, false⟩, 1)] := by decide
  obtain ⟨first, rest, hsplit, hlast, houter⟩ :=
    Function.writesOutermost_iff hsource ⟨_, hvars ▸ List.mem_cons_self, rfl⟩
  rw [hvars] at hsplit
  obtain ⟨rfl, rfl⟩ := List.cons.inj hsplit
  exact ⟨hsource, hvars, hlast, houter.2 (by decide)⟩

/-- The outermost value is not always kept: the `x` of the inner body is declared first, and it is
its value that the signal gets, whether or not the body has been run. -/
theorem inner_local_written_last :
    let x (init : Expr) (column : Nat) : Declaration :=
      ⟨"x", .int, .scalar (some init), ⟨1, column⟩⟩
    let f : Function := ⟨"f", .int, [⟨.int, "n"⟩],
      [.branch (.name "n") [.declare (x (.number "1") 25)] .none ⟨1, 16⟩,
        .declare (x (.number "2") 38), .ret (some (.name "x")) ⟨1, 49⟩], ⟨1, 5⟩⟩
    (Program.ofSource
      "int f(int n) { if (n) { int x = 1; } int x = 2; return x; }").outcome = .ok ⟨[f]⟩ ∧
    f.variablesNamed "x" = [(⟨"x", "x_v", .int, 0, false⟩, 1), (⟨"x", "x_v1", .int, 1, false⟩, 0)] ∧
    Sequential.linesOfList 3 f.process.clocked =
      ["      x_v := x;",
        "      x_v1 := x;",
        "      if unsigned(n) /= 0 then",
        "        x_v := 1;",
        "      end if;",
        "      x_v1 := 2;",
        "      result <= x_v1;",
        "      x <= x_v1;",
        "      x <= x_v;"] ∧
    lastWrite? "x" f.process.lines = some "      x <= x_v;" ∧ ¬ f.WritesOutermost "x" := by
  intro x f
  have hread : (Program.ofSource
      "int f(int n) { if (n) { int x = 1; } int x = 2; return x; }").outcome = .ok ⟨[f]⟩ := by
    with_unfolding_all rfl
  have hsource : f.FromSource := ⟨_, _, .inl hread, List.mem_singleton_self f⟩
  have hvars : f.variablesNamed "x" =
      [(⟨"x", "x_v", .int, 0, false⟩, 1), (⟨"x", "x_v1", .int, 1, false⟩, 0)] := by decide
  have hlast : lastWrite? "x" f.process.lines = some "      x <= x_v;" :=
    Function.lastWrite?_process hsource (by decide) hvars
  refine ⟨hread, hvars, by decide, hlast, ?_⟩
  rintro ⟨p, hp, hleast, hline⟩
  rw [hvars] at hp hleast
  rw [hlast] at hline
  rcases List.mem_cons.1 hp with rfl | hp
  · exact absurd (hleast _ (.tail _ (.head _))) (by decide)
  · rw [List.mem_singleton.1 hp] at hline
    exact absurd hline (by decide)

end ClockedC
