import ClockedC.Proofs.CheckedDeclarations
import ClockedC.Proofs.NumberedDesign
import ClockedC.Proofs.OutputPort

/-!
# How locals are declared

Each local of a function has a signal, unless its name is that of a parameter or of the output. For
an array there is a type as well, and a constant with its initial contents if it has an initializer.
The names of these two are made from the name of the array. A local or a parameter may have such a
name already, and then a name is declared twice.

* `declared?` says what a line declares.
* `Declaration.filterMap_lines`: what the lines for a local declare.
* `Function.LocalsDeclared` gathers what holds of the locals of every function that is read: each
  has one signal of the right form, arrays have one type, and variables are copied from and to
  signals that are declared.
* `Function.LocalsRead.declaresOnce_iff`: each local is declared just once, and no parameter is
  declared, if and only if none of the names made for an array is that of another local or of a
  parameter.
-/

namespace ClockedC

open Scan (Word)

/-! ## What a line declares -/

/-- What a line of an architecture declares: the word for its kind, and its name. -/
def declared? (line : String) : Option (String × String) :=
  let words := textWords line
  let kind := words.headD ""
  if ["signal", "type", "constant"].contains kind then some (kind, words.tail.headD "") else none

theorem declared?_of_word {first kind n rest : String} (hends : endsApart first = true)
    (hfirst : textWords first = [kind])
    (hkind : ["signal", "type", "constant"].contains kind = true) (hn : Word n.toList)
    (hrest : startsApart rest = true) : declared? (first ++ (n ++ rest)) = some (kind, n) := by
  have hwords : textWords (first ++ (n ++ rest)) = kind :: n :: textWords rest := by
    rw [textWords_append_of_endsApart _ hends, hfirst, textWords_append_of_startsApart _ hrest,
      textWords_of_word hn]
    rfl
  unfold declared?
  rw [hwords]
  exact if_pos hkind

theorem declared?_signal {n rest : String} (hn : Word n.toList) (hrest : startsApart rest = true) :
    declared? ("  signal " ++ (n ++ rest)) = some ("signal", n) :=
  declared?_of_word (by decide) (by decide) (by decide) hn hrest

theorem declared?_signalLine {n : String} (hn : Word n.toList) (type : ScalarType) :
    declared? (signalLine n type) = some ("signal", n) := by
  rw [signalLine_eq]
  exact declared?_signal hn (startsApart_append _ (startsApart_append _ (by decide)))

theorem Scan.Word.suffixed {n suffix : String} (hn : Word n.toList)
    (h : suffix.toList.all Scan.continuesName = true) : Word (n ++ suffix).toList := by
  rw [String.toList_append]
  exact hn.append h

theorem declared?_arrayTypeLine {n : String} (hn : Word n.toList) (last : Int) (type : ScalarType) :
    declared? (arrayTypeLine n last type) = some ("type", n ++ "_type") := by
  rw [arrayTypeLine_eq]
  refine declared?_of_word (by decide) (by decide) (by decide) (hn.suffixed (by decide)) ?_
  iterate 4 apply startsApart_append
  decide

theorem declared?_arraySignalLine {n : String} (hn : Word n.toList) (contents : String) :
    declared? (arraySignalLine n contents) = some ("signal", n) := by
  rw [arraySignalLine_eq]
  exact declared?_signal hn (startsApart_arraySignal n contents)

theorem declared?_arrayConstantLine {n : String} (hn : Word n.toList) (entries : String) :
    declared? (arrayConstantLine n entries) = some ("constant", n ++ "_init") := by
  rw [arrayConstantLine_eq]
  refine declared?_of_word (by decide) (by decide) (by decide) (hn.suffixed (by decide)) ?_
  iterate 4 apply startsApart_append
  decide

/-- The lines that declare a name as something of a kind. -/
def declaring (kind name : String) (lines : List String) : List String :=
  lines.filter fun line => declared? line = some (kind, name)

@[simp]
theorem declaring_nil (kind name : String) : declaring kind name [] = [] := rfl

theorem declaring_cons (kind name line : String) (lines : List String) :
    declaring kind name (line :: lines) =
      if declared? line = some (kind, name) then line :: declaring kind name lines
      else declaring kind name lines := by
  rw [declaring, List.filter_cons]
  simp only [decide_eq_true_eq]
  rfl

/-! ## What is declared for a local -/

namespace Declaration

/-- The names that are made for an array: that of its type, and that of the constant with its
initial contents. -/
def madeNames (d : Declaration) : List String :=
  match d.form with
  | .scalar _ => []
  | .array _ init => (d.name ++ "_type") :: (init.map fun _ => d.name ++ "_init").toList

/-- What is declared for a local. -/
def items (d : Declaration) : List (String × String) :=
  match d.form with
  | .scalar _ => [("signal", d.name)]
  | .array _ init =>
    ("type", d.name ++ "_type") :: (init.map fun _ => ("constant", d.name ++ "_init")).toList ++
      [("signal", d.name)]

theorem names_items (d : Declaration) : d.items.map Prod.snd = d.madeNames ++ [d.name] := by
  unfold items madeNames
  cases d.form with
  | scalar init => rfl
  | array size init => cases init <;> rfl

theorem signal_mem_items {d : Declaration} {n : String} :
    ("signal", n) ∈ d.items ↔ n = d.name := by
  unfold items
  cases d.form with
  | scalar init => simp
  | array size init => cases init <;> simp

theorem type_mem_items {d : Declaration} {n : String} (h : ("type", n) ∈ d.items) :
    n = d.name ++ "_type" := by
  unfold items at h
  cases hform : d.form with
  | scalar init => simp [hform] at h
  | array size init => cases init <;> simpa [hform] using h

/-- The lines for a local declare its signal and what is made for it. -/
theorem filterMap_lines {d : Declaration} (hd : Word d.name.toList) :
    d.lines.filterMap declared? = d.items := by
  unfold lines events items
  cases d.form with
  | scalar init => simp [declared?_signalLine hd]
  | array size init =>
    have htype := declared?_arrayTypeLine hd (lastIndex size) d.type
    cases init with
    | none =>
      have hsignal := declared?_arraySignalLine hd ""
      simp only [lines_arrayEvents_none, List.filterMap_cons, htype, hsignal]
      rfl
    | some elements =>
      have hcomment : declared? "  -- Array initialization" = none := by decide
      have hconstant := declared?_arrayConstantLine hd
        (commaSeparated (initialEntries d.type size elements))
      have hsignal := declared?_arraySignalLine hd (" := " ++ d.name ++ "_init")
      simp only [lines_arrayEvents_some, List.filterMap_cons, htype, hcomment, hconstant, hsignal]
      rfl

theorem declaring_lines_eq_nil {d : Declaration} (hd : Word d.name.toList) {kind n : String}
    (h : (kind, n) ∉ d.items) : declaring kind n d.lines = [] := by
  refine List.filter_eq_nil_iff.2 fun line hline heq => h ?_
  rw [← filterMap_lines hd]
  exact List.mem_filterMap.2 ⟨line, hline, of_decide_eq_true heq⟩

theorem declaring_signal_scalar {d : Declaration} (hd : Word d.name.toList) {init : Option Expr}
    (hform : d.form = .scalar init) :
    declaring "signal" d.name d.lines = [signalLine d.name d.type] := by
  unfold declaring lines events
  rw [hform]
  simp [declared?_signalLine hd]

theorem declaring_type_array {d : Declaration} (hd : Word d.name.toList) {size : Nat}
    {init : Option (List Element)} (hform : d.form = .array size init) :
    declaring "type" (d.name ++ "_type") d.lines =
      [arrayTypeLine d.name (lastIndex size) d.type] := by
  have htype := declared?_arrayTypeLine hd (lastIndex size) d.type
  unfold lines events
  rw [hform]
  cases init with
  | none =>
    have hsignal := declared?_arraySignalLine hd ""
    simp [lines_arrayEvents_none, declaring_cons, htype, hsignal]
  | some elements =>
    have hcomment : declared? "  -- Array initialization" = none := by decide
    simp [lines_arrayEvents_some, declaring_cons, htype, hcomment, declared?_arrayConstantLine hd,
      declared?_arraySignalLine hd]

theorem declaring_signal_array {d : Declaration} (hd : Word d.name.toList) {size : Nat}
    {init : Option (List Element)} (hform : d.form = .array size init) :
    ∃ contents, (contents = "" ∨ contents = " := " ++ d.name ++ "_init") ∧
      declaring "signal" d.name d.lines = [arraySignalLine d.name contents] := by
  have htype := declared?_arrayTypeLine hd (lastIndex size) d.type
  unfold lines events
  rw [hform]
  cases init with
  | none =>
    refine ⟨"", .inl rfl, ?_⟩
    simp [lines_arrayEvents_none, declaring_cons, htype, declared?_arraySignalLine hd]
  | some elements =>
    have hcomment : declared? "  -- Array initialization" = none := by decide
    refine ⟨_, .inr rfl, ?_⟩
    simp [lines_arrayEvents_some, declaring_cons, htype, hcomment, declared?_arrayConstantLine hd,
      declared?_arraySignalLine hd]

end Declaration

/-! ## First declarations -/

open ClockedC.Function (name_not_mem_of_mem_firstDeclarations)

theorem pairwise_firstDeclarations (taken : List String) (ds : List Declaration) :
    (firstDeclarations taken ds).Pairwise fun d d' => d.name ≠ d'.name := by
  fun_induction firstDeclarations taken ds with
  | case1 => exact .nil
  | case2 taken d ds _ ih => exact ih
  | case3 taken d ds _ ih =>
    refine List.pairwise_cons.2 ⟨fun d' hd' heq => ?_, ih⟩
    exact name_not_mem_of_mem_firstDeclarations hd' (heq ▸ List.mem_cons_self)

/-- Of the declarations of a name, the first one has the signal. -/
theorem find?_of_mem_firstDeclarations {taken : List String} {ds : List Declaration}
    {d : Declaration} (h : d ∈ firstDeclarations taken ds) :
    ds.find? (fun d' => d'.name = d.name) = some d := by
  fun_induction firstDeclarations taken ds with
  | case1 => cases h
  | case2 taken first ds htaken ih =>
    have hne : first.name ≠ d.name := by
      intro heq
      rw [heq] at htaken
      exact name_not_mem_of_mem_firstDeclarations h (List.contains_iff_mem.1 htaken)
    rw [List.find?_cons_of_neg (by simpa using hne), ih h]
  | case3 taken first ds _ ih =>
    rcases List.mem_cons.1 h with rfl | hmem
    · rw [List.find?_cons_of_pos (by simp)]
    · have hne : first.name ≠ d.name := fun heq =>
        name_not_mem_of_mem_firstDeclarations hmem (heq ▸ List.mem_cons_self)
      rw [List.find?_cons_of_neg (by simpa using hne), ih hmem]

theorem exists_mem_firstDeclarations {taken : List String} {ds : List Declaration}
    {d : Declaration} (hd : d ∈ ds) (htaken : d.name ∉ taken) :
    ∃ d₀ ∈ firstDeclarations taken ds, d₀.name = d.name := by
  fun_induction firstDeclarations taken ds with
  | case1 => cases hd
  | case2 taken first ds hfirst ih =>
    rcases List.mem_cons.1 hd with rfl | hmem
    · exact absurd (List.contains_iff_mem.1 hfirst) htaken
    · exact ih hmem htaken
  | case3 taken first ds _ ih =>
    by_cases heq : first.name = d.name
    · exact ⟨first, List.mem_cons_self, heq⟩
    · have hmem : d ∈ ds := by
        rcases List.mem_cons.1 hd with rfl | hmem
        · exact absurd rfl heq
        · exact hmem
      obtain ⟨d₀, hd₀, hname⟩ := ih hmem (by simpa using ⟨Ne.symm heq, htaken⟩)
      exact ⟨d₀, List.mem_cons_of_mem _ hd₀, hname⟩

/-- What is found in one part of a list and in no other part of it. -/
theorem filter_flatMap_eq {α β γ : Type} {key : α → γ} {g : α → List β} {p : β → Bool} {l : List α}
    (h : l.Pairwise fun a b => key a ≠ key b) {c : α} (hc : c ∈ l)
    (hother : ∀ a ∈ l, key a ≠ key c → (g a).filter p = []) :
    (l.flatMap g).filter p = (g c).filter p := by
  induction h with
  | nil => cases hc
  | @cons a l ha _ ih =>
    obtain ⟨hfirst, hrest⟩ := List.forall_mem_cons.1 hother
    rw [List.flatMap_cons, List.filter_append]
    rcases List.mem_cons.1 hc with rfl | hmem
    · have hnone : (l.flatMap g).filter p = [] := by
        rw [List.filter_flatMap, List.flatMap_eq_nil_iff]
        exact fun b hb => hrest b hb (ha b hb).symm
      rw [hnone, List.append_nil]
    · rw [hfirst (ha c hmem), List.nil_append, ih hmem hrest]

/-! ## The locals of a function -/

theorem Declaration.isArray_iff {d : Declaration} :
    d.isArray = true ↔ ∃ size init, d.form = .array size init := by
  unfold isArray
  cases d.form <;> simp

theorem Declaration.isArray_eq_false_iff {d : Declaration} :
    d.isArray = false ↔ ∃ init, d.form = .scalar init := by
  unfold isArray
  cases d.form <;> simp

theorem lastIndex_of_lt {size : Nat} (h : size < 0x8000000000000000) :
    lastIndex size = (size : Int) - 1 := by
  unfold lastIndex wrap64 wordCount
  rw [Int.bmod_eq_of_le] <;> omega

namespace Function

/-- What is known of the locals of a function that is read: they have words for names, each has one
shape, and no array is named like a parameter. -/
structure LocalsRead (f : Function) : Prop where
  words : ∀ d ∈ f.declarations, Word d.name.toList
  shapes : ∀ d ∈ f.declarations, ∀ d' ∈ f.declarations, d.name = d'.name →
    d.form.shape = d'.form.shape
  arrays : ∀ d ∈ f.declarations, d.isArray = true → f.hasParam d.name = false

/-- The lines that declare the locals of a function. -/
def localLines (f : Function) : List String :=
  f.signalDeclarations.flatMap Declaration.lines

/-- The names that are declared for the locals of a function. -/
def localNames (f : Function) : List String :=
  (f.localLines.filterMap declared?).map Prod.snd

variable {f : Function}

theorem mem_signalDeclarations {d : Declaration} (h : d ∈ f.signalDeclarations) :
    d ∈ f.declarations ∧ f.hasParam d.name = false ∧ d.name ≠ outputName := by
  have hfree := name_not_mem_of_mem_firstDeclarations h
  obtain ⟨hne, hparams⟩ := List.ne_and_not_mem_of_not_mem_cons hfree
  refine ⟨mem_of_mem_firstDeclarations h, ?_, hne⟩
  refine List.any_eq_false.2 fun p hp heq => hparams ?_
  rw [← of_decide_eq_true heq]
  exact List.mem_map_of_mem hp

/-- A local whose name is not taken has a signal, which its first declaration gives it. -/
theorem exists_signalDeclaration {d : Declaration} (hd : d ∈ f.declarations)
    (hparam : f.hasParam d.name = false) (hne : d.name ≠ outputName) :
    ∃ d₀ ∈ f.signalDeclarations, d₀.name = d.name ∧
      f.declarations.find? (fun d' => d'.name = d.name) = some d₀ := by
  have hfree : d.name ∉ outputName :: f.params.map Param.name := by
    refine List.not_mem_cons_of_ne_of_not_mem hne fun hmem => ?_
    obtain ⟨p, hp, hname⟩ := List.mem_map.1 hmem
    exact List.any_eq_false.1 hparam p hp (decide_eq_true hname)
  obtain ⟨d₀, hd₀, hname⟩ := exists_mem_firstDeclarations hd hfree
  refine ⟨d₀, hd₀, hname, ?_⟩
  rw [← hname]
  exact find?_of_mem_firstDeclarations hd₀

namespace LocalsRead

theorem word (h : f.LocalsRead) {d : Declaration} (hd : d ∈ f.signalDeclarations) :
    Word d.name.toList :=
  h.words d (mem_signalDeclarations hd).1

/-- Only the lines for one local declare its signal. -/
theorem declaring_signal (h : f.LocalsRead) {d : Declaration} (hd : d ∈ f.signalDeclarations) :
    declaring "signal" d.name f.localLines = declaring "signal" d.name d.lines := by
  refine filter_flatMap_eq (pairwise_firstDeclarations _ _) hd fun d' hd' hne => ?_
  refine Declaration.declaring_lines_eq_nil (h.word hd') fun hmem => hne ?_
  exact (Declaration.signal_mem_items.1 hmem).symm

/-- Only the lines for one array declare its type. -/
theorem declaring_type (h : f.LocalsRead) {d : Declaration} (hd : d ∈ f.signalDeclarations) :
    declaring "type" (d.name ++ "_type") f.localLines =
      declaring "type" (d.name ++ "_type") d.lines := by
  refine filter_flatMap_eq (pairwise_firstDeclarations _ _) hd fun d' hd' hne => ?_
  refine Declaration.declaring_lines_eq_nil (h.word hd') fun hmem => hne ?_
  have heq := congrArg String.toList (Declaration.type_mem_items hmem)
  rw [String.toList_append, String.toList_append] at heq
  exact (String.toList_inj.1 (List.append_cancel_right heq)).symm

theorem filterMap_localLines (h : f.LocalsRead) :
    f.localLines.filterMap declared? = f.signalDeclarations.flatMap Declaration.items := by
  rw [localLines, List.filterMap_flatMap, List.flatMap_def, List.flatMap_def]
  exact congrArg List.flatten
    (List.map_congr_left fun d hd => Declaration.filterMap_lines (h.word hd))

/-- A local that is a scalar has one signal. -/
theorem scalar_declared (h : f.LocalsRead) {d : Declaration} (hd : d ∈ f.declarations)
    (hparam : f.hasParam d.name = false) (hne : d.name ≠ outputName) (hscalar : d.isArray = false) :
    ∃ d₀, f.declarations.find? (fun d' => d'.name = d.name) = some d₀ ∧
      declaring "signal" d.name f.localLines = [signalLine d.name d₀.type] := by
  obtain ⟨d₀, hd₀, hname, hfirst⟩ := exists_signalDeclaration hd hparam hne
  refine ⟨d₀, hfirst, ?_⟩
  have hshape := h.shapes d₀ (mem_signalDeclarations hd₀).1 d hd hname
  obtain ⟨init, hform⟩ := Declaration.isArray_eq_false_iff.1
    ((isArray_eq_of_shape_eq hshape).trans hscalar)
  rw [← hname, h.declaring_signal hd₀, Declaration.declaring_signal_scalar (h.word hd₀) hform]

/-- An array has one type, with the size of all its declarations, and one signal of this type. -/
theorem array_declared (h : f.LocalsRead) {d : Declaration} (hd : d ∈ f.declarations)
    (hne : d.name ≠ outputName) {size : Nat} {init : Option (List Element)}
    (hform : d.form = .array size init) (hsize : size < 0x8000000000000000) :
    ∃ d₀, f.declarations.find? (fun d' => d'.name = d.name) = some d₀ ∧
      declaring "type" (d.name ++ "_type") f.localLines =
        [arrayTypeLine d.name (size - 1) d₀.type] ∧
      ∃ contents, (contents = "" ∨ contents = " := " ++ d.name ++ "_init") ∧
        declaring "signal" d.name f.localLines = [arraySignalLine d.name contents] := by
  have hparam := h.arrays d hd (Declaration.isArray_iff.2 ⟨size, init, hform⟩)
  obtain ⟨d₀, hd₀, hname, hfirst⟩ := exists_signalDeclaration hd hparam hne
  have hshape := h.shapes d₀ (mem_signalDeclarations hd₀).1 d hd hname
  obtain ⟨init₀, hform₀⟩ : ∃ init₀, d₀.form = .array size init₀ := by
    rw [hform] at hshape
    cases hform₀ : d₀.form with
    | scalar init₀ =>
      rw [hform₀] at hshape
      cases hshape
    | array size₀ init₀ =>
      rw [hform₀] at hshape
      cases hshape
      exact ⟨init₀, rfl⟩
  refine ⟨d₀, hfirst, ?_⟩
  rw [← hname, h.declaring_type hd₀, h.declaring_signal hd₀, ← lastIndex_of_lt hsize]
  exact ⟨Declaration.declaring_type_array (h.word hd₀) hform₀,
    Declaration.declaring_signal_array (h.word hd₀) hform₀⟩

/-- No parameter has a signal, and neither has the output. -/
theorem of_signal_mem (h : f.LocalsRead) {n : String}
    (hn : ("signal", n) ∈ f.localLines.filterMap declared?) :
    f.hasParam n = false ∧ n ≠ outputName ∧ ∃ d ∈ f.declarations, d.name = n := by
  rw [h.filterMap_localLines] at hn
  obtain ⟨d, hd, hitem⟩ := List.mem_flatMap.1 hn
  obtain rfl := Declaration.signal_mem_items.1 hitem
  obtain ⟨hmem, hparam, hne⟩ := mem_signalDeclarations hd
  exact ⟨hparam, hne, d, hmem, rfl⟩

end LocalsRead

/-! ## Variables and their signals -/

theorem hidesParam_of_mem_locals {v : ProcessVariable} (hv : v ∈ f.process.locals) :
    v.hidesParam = f.hasParam v.source ∧
      ∃ d ∈ f.declarations, d.hasVariable = true ∧ d.name = v.source := by
  obtain ⟨o, ho, heq⟩ := List.mem_filterMap.1 hv
  rw [show o = some v from heq] at ho
  have hholds := f.holds_of_mem ho
  exact ⟨hholds.hidesParam, hholds.declared⟩

/-- What is written back goes to the signal of a scalar. -/
theorem LocalsRead.variable_declared (h : f.LocalsRead) {v : ProcessVariable}
    (hv : v ∈ f.process.locals) (hback : v.isWrittenBack = true) :
    ∃ type, declaring "signal" v.source f.localLines = [signalLine v.source type] := by
  obtain ⟨hparam, d, hd, hvariable, hname⟩ := hidesParam_of_mem_locals hv
  unfold Declaration.hasVariable at hvariable
  simp only [Bool.and_eq_true, Bool.not_eq_true', decide_eq_true_eq] at hvariable
  unfold ProcessVariable.isWrittenBack at hback
  rw [hparam, Bool.not_eq_true', ← hname] at hback
  obtain ⟨d₀, -, hline⟩ := h.scalar_declared hd hback hvariable.2 hvariable.1
  rw [← hname]
  exact ⟨d₀.type, hline⟩

theorem port_mem_entityLines {p : Param} (hp : p ∈ f.params) :
    s!"    {p.name} : in {p.type.vector};" ∈ f.entityLines :=
  List.mem_append_left _ (List.mem_append_right _ (List.mem_map_of_mem hp))

/-- What is not written back comes from an input. -/
theorem exists_port {v : ProcessVariable} (hv : v ∈ f.process.locals)
    (hback : v.isWrittenBack = false) :
    ∃ p ∈ f.params, p.name = v.source ∧
      s!"    {p.name} : in {p.type.vector};" ∈ f.entityLines := by
  obtain ⟨hparam, -⟩ := hidesParam_of_mem_locals hv
  unfold ProcessVariable.isWrittenBack at hback
  rw [hparam, Bool.not_eq_false'] at hback
  obtain ⟨p, hp, hname⟩ := List.any_eq_true.1 hback
  exact ⟨p, hp, of_decide_eq_true hname, port_mem_entityLines hp⟩

end Function

theorem indented_three (text : String) : indented 3 text = "      " ++ text := rfl

/-- On each tick the values of signals and inputs are copied to the variables before the body runs,
and those of variables with a signal are copied back behind it. -/
theorem Process.linesOfList_clocked (p : Process) :
    Sequential.linesOfList 3 p.clocked =
      (p.locals.map fun v => s!"      {v.name} := {v.source};") ++
        Sequential.linesOfList 3 p.body ++
        (p.locals.filter ProcessVariable.isWrittenBack).reverse.map fun v =>
          s!"      {v.source} <= {v.name};" := by
  have htext (a mark b : String) :
      indented 3 (toString a ++ toString mark ++ toString b ++ toString ";") =
        toString "      " ++ toString a ++ toString mark ++ toString b ++ toString ";" := by
    simp only [indented_three, toString, String.append_assoc]
  have hcopyIn (vs : List ProcessVariable) :
      Sequential.linesOfList 3 (vs.map ProcessVariable.copyIn) =
        vs.map fun v => s!"      {v.name} := {v.source};" := by
    induction vs with
    | nil => rfl
    | cons v vs ih =>
      rw [List.map_cons, Sequential.linesOfList, ih]
      exact congrArg (· :: _) (htext v.name " := " v.source)
  have hcopyOut (vs : List ProcessVariable) :
      Sequential.linesOfList 3 (vs.filterMap ProcessVariable.copyOut?) =
        (vs.filter ProcessVariable.isWrittenBack).map fun v =>
          s!"      {v.source} <= {v.name};" := by
    induction vs with
    | nil => rfl
    | cons v vs ih =>
      rw [List.filterMap_cons, ProcessVariable.copyOut?, List.filter_cons]
      cases v.isWrittenBack with
      | false => exact ih
      | true =>
        rw [if_pos rfl, if_pos rfl]
        dsimp only
        rw [Sequential.linesOfList, ih]
        exact congrArg (· :: _) (htext v.source " <= " v.name)
  rw [Process.clocked, Sequential.linesOfList_append, Sequential.linesOfList_append, hcopyIn,
    hcopyOut, List.filter_reverse]

/-! ## Names that are declared once -/

namespace Function

variable {f : Function}

/-- The names that are made for the arrays of a function. -/
def madeNames (f : Function) : List String :=
  f.signalDeclarations.flatMap Declaration.madeNames

/-- Each local is declared once, unless its name is taken, and no parameter is declared and neither
is the output. -/
structure DeclaresOnce (f : Function) : Prop where
  locals : ∀ d ∈ f.declarations, f.hasParam d.name = false → d.name ≠ outputName →
    f.localNames.count d.name = 1
  params : ∀ n ∈ f.paramNames, n ∉ f.localNames
  output : outputName ∉ f.localNames

theorem hasParam_eq_false_iff {n : String} : f.hasParam n = false ↔ n ∉ f.paramNames := by
  rw [hasParam, paramNames, List.any_eq_false, List.mem_map]
  simp

theorem outputName_not_mem_madeNames (f : Function) : outputName ∉ f.madeNames := by
  intro hmem
  obtain ⟨d, -, hmade⟩ := List.mem_flatMap.1 hmem
  have hunderscore (n : String) {suffix : String} (hsuffix : '_' ∈ suffix.toList) :
      outputName ≠ n ++ suffix := by
    intro heq
    have hmem : '_' ∈ outputName.toList := by
      rw [heq, String.toList_append]
      exact List.mem_append_right _ hsuffix
    exact absurd hmem (by decide)
  unfold Declaration.madeNames at hmade
  cases hform : d.form with
  | scalar init => simp [hform] at hmade
  | array size init =>
    rw [hform] at hmade
    rcases List.mem_cons.1 hmade with htype | hinit
    · exact hunderscore d.name (by decide) htype
    · obtain ⟨_, -, heq⟩ := Option.map_eq_some_iff.1 (Option.mem_toList.1 hinit)
      exact hunderscore d.name (by decide) heq.symm

namespace LocalsRead

theorem localNames_eq (h : f.LocalsRead) :
    f.localNames = f.signalDeclarations.flatMap fun d => d.madeNames ++ [d.name] := by
  rw [localNames, h.filterMap_localLines, List.map_flatMap]
  simp only [Declaration.names_items]

theorem mem_localNames (h : f.LocalsRead) {n : String} :
    n ∈ f.localNames ↔ n ∈ f.madeNames ∨ ∃ d ∈ f.signalDeclarations, d.name = n := by
  rw [h.localNames_eq, madeNames, List.mem_flatMap, List.mem_flatMap]
  constructor
  · rintro ⟨d, hd, hmem⟩
    rcases List.mem_append.1 hmem with hmade | hname
    · exact .inl ⟨d, hd, hmade⟩
    · exact .inr ⟨d, hd, (List.mem_singleton.1 hname).symm⟩
  · rintro (⟨d, hd, hmade⟩ | ⟨d, hd, rfl⟩)
    · exact ⟨d, hd, List.mem_append_left _ hmade⟩
    · exact ⟨d, hd, List.mem_append_right _ (List.mem_singleton_self _)⟩

/-- A local is declared once for itself, and once more for each name that is made like its own. -/
theorem count_localNames (h : f.LocalsRead) {d : Declaration} (hd : d ∈ f.signalDeclarations) :
    f.localNames.count d.name = f.madeNames.count d.name + 1 := by
  have hsplit (ds : List Declaration) :
      (ds.flatMap fun d => d.madeNames ++ [d.name]).count d.name =
        (ds.flatMap Declaration.madeNames).count d.name +
          (ds.map Declaration.name).count d.name := by
    induction ds with
    | nil => rfl
    | cons d' ds ih =>
      simp only [List.flatMap_cons, List.map_cons, List.count_append, List.count_cons,
        List.count_nil, ih]
      omega
  have hnodup : (f.signalDeclarations.map Declaration.name).Nodup :=
    List.pairwise_map.2 (pairwise_firstDeclarations _ _)
  have hone : (f.signalDeclarations.map Declaration.name).count d.name = 1 := by
    rw [hnodup.count, if_pos (List.mem_map_of_mem hd)]
  rw [h.localNames_eq, hsplit, hone, madeNames]

theorem count_localNames_eq_one_iff (h : f.LocalsRead) {d : Declaration}
    (hd : d ∈ f.signalDeclarations) :
    f.localNames.count d.name = 1 ↔ d.name ∉ f.madeNames := by
  rw [h.count_localNames hd, ← List.count_eq_zero]
  omega

/-- Each local is declared once and nothing else is declared if and only if no name that is made for
an array is that of a local or of a parameter. -/
theorem declaresOnce_iff (h : f.LocalsRead) :
    f.DeclaresOnce ↔ ∀ n ∈ f.madeNames, n ∉ f.ownNames := by
  constructor
  · intro honce n hmade hown
    have hlocal : n ∈ f.localNames := h.mem_localNames.2 (.inl hmade)
    rcases List.mem_append.1 hown with hparam | hdeclared
    · exact honce.params n hparam hlocal
    · obtain ⟨d, hd, rfl⟩ := List.mem_map.1 hdeclared
      have hparam : f.hasParam d.name = false :=
        hasParam_eq_false_iff.2 fun hparam => honce.params d.name hparam hlocal
      have hne : d.name ≠ outputName := fun heq => f.outputName_not_mem_madeNames (heq ▸ hmade)
      obtain ⟨d₀, hd₀, hname, -⟩ := exists_signalDeclaration hd hparam hne
      have hcount := honce.locals d hd hparam hne
      rw [← hname] at hcount hmade
      exact (h.count_localNames_eq_one_iff hd₀).1 hcount hmade
  · intro hmade
    refine ⟨fun d hd hparam hne => ?_, fun n hn hlocal => ?_, fun hlocal => ?_⟩
    · obtain ⟨d₀, hd₀, hname, -⟩ := exists_signalDeclaration hd hparam hne
      rw [← hname, h.count_localNames_eq_one_iff hd₀, hname]
      exact fun hmem => hmade d.name hmem (List.mem_append_right _ (List.mem_map_of_mem hd))
    · rcases h.mem_localNames.1 hlocal with hmem | ⟨d, hd, rfl⟩
      · exact hmade n hmem (List.mem_append_left _ hn)
      · exact hasParam_eq_false_iff.1 (mem_signalDeclarations hd).2.1 hn
    · rcases h.mem_localNames.1 hlocal with hmem | ⟨d, hd, hname⟩
      · exact f.outputName_not_mem_madeNames hmem
      · exact (mem_signalDeclarations hd).2.2 hname

end LocalsRead

/-! ## Functions that are read -/

/-- What holds of the declarations of the locals of a function. -/
structure LocalsDeclared (f : Function) : Prop where
  /-- They come before all other signals. -/
  first : ∀ signature?, f.localLines <+: Event.lines (f.signalEvents signature?)
  /-- A scalar has one signal, of the type that it has where it is first declared. -/
  scalars : ∀ d ∈ f.declarations, f.hasParam d.name = false → d.name ≠ outputName →
    d.isArray = false →
    ∃ d₀, f.declarations.find? (fun d' => d'.name = d.name) = some d₀ ∧
      declaring "signal" d.name f.localLines = [signalLine d.name d₀.type]
  /-- An array has one type, with the size of all its declarations, and one signal of this type. -/
  arrays : ∀ d ∈ f.declarations, d.name ≠ outputName → ∀ size init, d.form = .array size init →
    size < 0x8000000000000000 →
    ∃ d₀, f.declarations.find? (fun d' => d'.name = d.name) = some d₀ ∧
      declaring "type" (d.name ++ "_type") f.localLines =
        [arrayTypeLine d.name (size - 1) d₀.type] ∧
      ∃ contents, (contents = "" ∨ contents = " := " ++ d.name ++ "_init") ∧
        declaring "signal" d.name f.localLines = [arraySignalLine d.name contents]
  /-- No parameter has a signal, and neither has the output. -/
  signals : ∀ n, ("signal", n) ∈ f.localLines.filterMap declared? →
    f.hasParam n = false ∧ n ≠ outputName ∧ ∃ d ∈ f.declarations, d.name = n
  /-- A variable that is written back has the signal of a scalar. -/
  writtenBack : ∀ v ∈ f.process.locals, v.isWrittenBack = true →
    ∃ type, declaring "signal" v.source f.localLines = [signalLine v.source type]
  /-- One that is not comes from an input. -/
  readOnly : ∀ v ∈ f.process.locals, v.isWrittenBack = false →
    ∃ p ∈ f.params, p.name = v.source ∧ s!"    {p.name} : in {p.type.vector};" ∈ f.entityLines
  /-- All variables are copied in, and those that are written back are copied out. -/
  copies : Sequential.linesOfList 3 f.process.clocked =
    (f.process.locals.map fun v => s!"      {v.name} := {v.source};") ++
      Sequential.linesOfList 3 f.process.body ++
      (f.process.locals.filter ProcessVariable.isWrittenBack).reverse.map fun v =>
        s!"      {v.source} <= {v.name};"

theorem LocalsRead.localsDeclared (h : f.LocalsRead) : f.LocalsDeclared where
  first signature? := by
    rw [lines_signalEvents, List.append_assoc]
    exact List.prefix_append _ _
  scalars d hd hparam hne hscalar := h.scalar_declared hd hparam hne hscalar
  arrays d hd hne size init hform hsize := h.array_declared hd hne hform hsize
  signals n hn := h.of_signal_mem hn
  writtenBack v hv hback := h.variable_declared hv hback
  readOnly v hv hback := exists_port hv hback
  copies := f.process.linesOfList_clocked

theorem localsRead_of_ofSource {source : String} {program : Program}
    (h : (Program.ofSource source).outcome = .ok program) (hf : f ∈ program.functions) :
    f.LocalsRead := by
  have hchecked := Program.checked_of_ofSource h f hf
  exact ⟨(Program.written_of_ofSource h f hf).names,
    fun _ hd _ hd' hname => hchecked.shape_eq hd hd' hname,
    fun _ hd harray => hchecked.hasParam_eq_false hd harray⟩

/-- Numbering the calls of a function does not change what is known of its locals. -/
theorem LocalsRead.numberCalls (h : f.LocalsRead) : f.numberCalls.1.LocalsRead := by
  have hkept : Declaration.KeptByNumbering fun d => (d.name, d.form.shape) := by
    intro d next
    unfold Declaration.numberCalls
    split
    next _ hform => simp [hform, Form.shape]
    next => rfl
  have hsame : f.numberCalls.1.declarations.map (fun d => (d.name, d.form.shape)) =
      f.declarations.map fun d => (d.name, d.form.shape) :=
    Block.map_declarations_numberCalls hkept f.body f.firstFreeUnit
  have hexists {d : Declaration} (hd : d ∈ f.numberCalls.1.declarations) :
      ∃ d₀ ∈ f.declarations, d₀.name = d.name ∧ d₀.form.shape = d.form.shape := by
    have hmem : (d.name, d.form.shape) ∈ f.declarations.map fun d => (d.name, d.form.shape) := by
      rw [← hsame]
      exact List.mem_map_of_mem hd
    obtain ⟨d₀, hd₀, heq⟩ := List.mem_map.1 hmem
    exact ⟨d₀, hd₀, (Prod.mk.inj heq).1, (Prod.mk.inj heq).2⟩
  constructor
  · intro d hd
    obtain ⟨d₀, hd₀, hname, -⟩ := hexists hd
    exact hname ▸ h.words d₀ hd₀
  · intro d hd d' hd' hname
    obtain ⟨d₀, hd₀, hname₀, hshape₀⟩ := hexists hd
    obtain ⟨d₁, hd₁, hname₁, hshape₁⟩ := hexists hd'
    rw [← hshape₀, ← hshape₁]
    exact h.shapes d₀ hd₀ d₁ hd₁ (hname₀.trans (hname.trans hname₁.symm))
  · intro d hd harray
    obtain ⟨d₀, hd₀, hname, hshape⟩ := hexists hd
    rw [← hname]
    exact h.arrays d₀ hd₀ ((isArray_eq_of_shape_eq hshape).trans harray)

/-- **Locals are declared once, but for names that are made.** In every function that is read, with
or without its calls numbered, each local has one signal of the right form and each array one type,
unless the name is that of a parameter or of the output. Variables are copied in from what is
declared, and those that have a signal are copied out to it. Each local is declared once, and no
parameter is declared and neither is the output, if and only if no name that is made for an array is
that of a local or of a parameter. -/
theorem locals_declared {source : String} {program : Program}
    (h : (Program.ofSource source).outcome = .ok program) (hf : f ∈ program.functions) :
    ∀ g ∈ [f, f.numbered], g.LocalsDeclared ∧
      (g.DeclaresOnce ↔ ∀ n ∈ g.madeNames, n ∉ g.ownNames) := by
  have hread : f.LocalsRead := localsRead_of_ofSource h hf
  have hnumbered : f.numbered.LocalsRead := by
    rw [f.numbered_eq_numberCalls]
    exact hread.numberCalls
  refine List.forall_mem_cons.2 ⟨?_, List.forall_mem_singleton.2 ?_⟩
  · exact ⟨hread.localsDeclared, hread.declaresOnce_iff⟩
  · exact ⟨hnumbered.localsDeclared, hnumbered.declaresOnce_iff⟩

end Function

/-- An array that is declared twice, a local named like a parameter, and a scalar in a nested
body. -/
theorem locals_declared_array :
    let call (unit : Option Nat) : Expr := .call "g" [.name "y"] unit ⟨1, 75⟩
    let f (unit : Option Nat) : Function := ⟨"f", .int, [⟨.int, "x"⟩],
      [.declare ⟨"a", .int, .array 2 (some [.number "1", .number "2"]), ⟨1, 16⟩⟩,
        .declare ⟨"x", .char, .scalar (some (.number "3")), ⟨1, 35⟩⟩,
        .declare ⟨"y", .int, .scalar none, ⟨1, 49⟩⟩,
        .declare ⟨"a", .int, .array 2 none, ⟨1, 56⟩⟩,
        .ret (some (call unit)) ⟨1, 68⟩], ⟨1, 5⟩⟩
    (Program.ofSource
      "int f(int x) { int a[2] = {1, 2}; char x = 3; { int y; int a[2]; } return g(y); }"
      ).outcome = .ok ⟨[f none]⟩ ∧
    (f none).numbered = f (some 0) ∧ (f (some 0)).DeclaresOnce ∧
    (f (some 0)).localNames = ["a_type", "a_init", "a", "y"] ∧
    declaring "type" "a_type" (f (some 0)).localLines =
      ["  type a_type is array (0 to 1) of std_logic_vector(31 downto 0);"] ∧
    declaring "signal" "y" (f (some 0)).localLines =
      ["  signal y : std_logic_vector(31 downto 0);"] := by
  intro call f
  have hread : (Program.ofSource
      "int f(int x) { int a[2] = {1, 2}; char x = 3; { int y; int a[2]; } return g(y); }"
      ).outcome = .ok ⟨[f none]⟩ := by
    with_unfolding_all rfl
  have hnumbered : (f none).numbered = f (some 0) := rfl
  obtain ⟨hdeclared, honce⟩ :=
    Function.locals_declared hread (List.mem_singleton_self _) (f (some 0))
      (List.mem_cons_of_mem _ (hnumbered ▸ List.mem_singleton_self _))
  have hapart : ∀ n ∈ (f (some 0)).madeNames, n ∉ (f (some 0)).ownNames := by decide
  obtain ⟨d₀, hfirst, htype, -⟩ := hdeclared.arrays ⟨"a", .int, .array 2 none, ⟨1, 56⟩⟩
    (by simp [f, Function.declarations, Block.declarations, Stmt.declarations]) (by decide) 2 none
    rfl (by decide)
  obtain ⟨d₁, hfirst', hsignal⟩ := hdeclared.scalars ⟨"y", .int, .scalar none, ⟨1, 49⟩⟩
    (by simp [f, Function.declarations, Block.declarations, Stmt.declarations]) (by decide)
    (by decide) rfl
  cases hfirst
  cases hfirst'
  have hnames := (Function.localsRead_of_ofSource hread (List.mem_singleton_self _)).numberCalls
  exact ⟨hread, hnumbered, honce.2 hapart, hnames.localNames_eq, htype, hsignal⟩

/-- **A local that is declared twice.** It is named like the constant with the initial contents of
an array. A parameter may have this name too. -/
theorem local_declared_twice :
    (∃ f, (Program.ofSource
        "int f(int x) { int a[2] = {1, 2}; int a_init = x; return a_init; }").outcome = .ok ⟨[f]⟩ ∧
      f.localLines.filterMap declared? =
        [("type", "a_type"), ("constant", "a_init"), ("signal", "a"), ("signal", "a_init")] ∧
      ¬ f.DeclaresOnce) ∧
    ∃ f, (Program.ofSource "int f(int a_init) { int a[2] = {1, 2}; return a[0]; }").outcome =
        .ok ⟨[f]⟩ ∧
      f.localLines.filterMap declared? =
        [("type", "a_type"), ("constant", "a_init"), ("signal", "a")] ∧
      "a_init" ∈ f.paramNames ∧ ¬ f.DeclaresOnce := by
  let array (column : Nat) : Stmt :=
    .declare ⟨"a", .int, .array 2 (some [.number "1", .number "2"]), ⟨1, column⟩⟩
  let f : Function := ⟨"f", .int, [⟨.int, "x"⟩],
    [array 16, .declare ⟨"a_init", .int, .scalar (some (.name "x")), ⟨1, 35⟩⟩,
      .ret (some (.name "a_init")) ⟨1, 51⟩], ⟨1, 5⟩⟩
  let g : Function := ⟨"f", .int, [⟨.int, "a_init"⟩],
    [array 21, .ret (some (.element "a" (.number "0") "0")) ⟨1, 40⟩], ⟨1, 5⟩⟩
  have hf : (Program.ofSource
      "int f(int x) { int a[2] = {1, 2}; int a_init = x; return a_init; }").outcome =
      .ok ⟨[f]⟩ := by
    with_unfolding_all rfl
  have hg : (Program.ofSource "int f(int a_init) { int a[2] = {1, 2}; return a[0]; }").outcome =
      .ok ⟨[g]⟩ := by
    with_unfolding_all rfl
  have hreadf := Function.localsRead_of_ofSource hf (List.mem_singleton_self _)
  have hreadg := Function.localsRead_of_ofSource hg (List.mem_singleton_self _)
  refine ⟨⟨f, hf, hreadf.filterMap_localLines, fun honce => ?_⟩,
    ⟨g, hg, hreadg.filterMap_localLines, List.mem_singleton_self _, fun honce => ?_⟩⟩
  · exact hreadf.declaresOnce_iff.1 honce "a_init" (by decide) (by decide)
  · exact hreadg.declaresOnce_iff.1 honce "a_init" (by decide) (by decide)

end ClockedC
