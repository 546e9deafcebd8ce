import ClockedC.Proofs.CallWiring
import ClockedC.Proofs.ShownNames

/-!
# Locals that are named like the output

The output of an entity cannot be read. A scalar that is named like it is kept in a signal of its
own, which drives the output. Elements of an array are not renamed in the process, and names in the
arguments of calls are not renamed at all, so the output can still be read or set there. This file
says when its name is kept out of everything else in the architecture.

* `Function.outputFree_body`, `Call.outputFree_connections`: the body of the process and the ports
  of an instance mention the output in these cases only.
* `Function.filter_architectureLines`: in the rest of the architecture, the line that drives the
  output is the only one that mentions it.
* `Function.keepsOutputApart_iff`: the output is kept apart if and only if the local is a scalar, no
  element of an array of that name is used, and no argument of a call shows the name.
-/

namespace ClockedC

open Scan (Word)

/-! ## Parts of lines -/

theorem not_mentions_word {n : String} (hn : Word n.toList) (hne : n ≠ outputName) :
    ¬ Mentions outputName n := by
  rw [mentions_of_word hn]
  exact hne.symm

/-- A word with a character that the name of the output does not have. -/
theorem not_mentions_of_mem {text : String} {c : Char} (hall : text.toList.all isWordChar = true)
    (htext : c ∈ text.toList) (hc : c ∉ outputName.toList) : ¬ Mentions outputName text := by
  have hne : text ≠ "" := by
    rintro rfl
    cases htext
  rw [Mentions, textWords_of_all hne hall, List.mem_singleton]
  exact fun heq => hc (heq ▸ htext)

theorem not_mentions_suffixed {n suffix : String} (h : '_' ∈ suffix.toList)
    (hall : suffix.toList.all Scan.continuesName = true) (hn : Word n.toList) :
    ¬ Mentions outputName (n ++ suffix) := by
  have htext := String.toList_append (s := n) (t := suffix)
  refine not_mentions_of_mem (c := '_') ?_ ?_ (by decide)
  · rw [htext]
    exact all_isWordChar_of_word (hn.append hall)
  · rw [htext]
    exact List.mem_append_right _ h

theorem not_mentions_nat (n : Nat) : ¬ Mentions outputName (toString n) := by
  refine not_mentions_of_not_mem (by decide : 'r' ∈ outputName.toList) fun hmem => ?_
  exact absurd (isDigit_of_mem_toString hmem) (by decide)

theorem not_mentions_int (k : Int) : ¬ Mentions outputName (toString k) := by
  refine not_mentions_of_not_mem (by decide : 'r' ∈ outputName.toList) fun hmem => ?_
  rw [toList_toString_int] at hmem
  rcases List.mem_append.1 hmem with hsign | hdigits
  · split at hsign <;> simp at hsign
  · exact absurd (Nat.isDigit_of_mem_toDigits (by decide) (by decide) hdigits) (by decide)

theorem not_mentions_vector (type : ScalarType) : ¬ Mentions outputName type.vector := by
  cases type <;> decide

theorem not_mentions_bitString (width n : Nat) : ¬ Mentions outputName (bitString width n) := by
  refine not_mentions_of_not_mem (by decide : 'r' ∈ outputName.toList) ?_
  rw [bitString, String.toList_ofList]
  induction width with
  | zero => exact List.not_mem_nil
  | succ width ih =>
    have hbit : 'r' ≠ bitAt n width := by
      unfold bitAt
      split <;> decide
    exact List.not_mem_cons_of_ne_of_not_mem hbit ih

theorem Element.exists_bits_eq (type : ScalarType) (e : Element) :
    ∃ n, e.bits type = bitString type.width n := by
  have hencoded (text : String) :
      ∃ n, (type.encoded? text).getD type.zeroCode = bitString type.width n := by
    cases h : type.encoded? text with
    | none => exact ⟨0, rfl⟩
    | some bits =>
      cases type <;> obtain ⟨v, -, hv⟩ := Option.map_eq_some_iff.1 h <;> exact ⟨_, hv.symm⟩
  cases e with
  | number text => exact hencoded text
  | character c => exact hencoded (toString c.toNat)
  | name _ => exact ⟨0, rfl⟩

theorem not_mentions_initialEntries (type : ScalarType) (size : Nat) (elements : List Element) :
    ¬ Mentions outputName (commaSeparated (initialEntries type size elements)) := by
  rw [mentions_commaSeparated]
  rintro ⟨entry, hentry, hmentions⟩
  rcases List.mem_append.1 hentry with hbits | hothers
  · obtain ⟨e, -, rfl⟩ := List.mem_map.1 hbits
    obtain ⟨n, hn⟩ := e.exists_bits_eq type
    rw [hn] at hmentions
    exact not_mentions_between (by decide) (by decide) (by decide)
      (not_mentions_bitString type.width n) (by decide) hmentions
  · split at hothers
    · rw [List.mem_singleton.1 hothers] at hmentions
      exact absurd hmentions (by decide)
    · cases hothers

/-- A line that declares a signal or a variable. -/
theorem not_mentions_declared {before n : String} (hends : endsApart before = true)
    (hbefore : ¬ Mentions outputName before) (hn : ¬ Mentions outputName n) {type : String}
    (htype : ¬ Mentions outputName type) :
    ¬ Mentions outputName (before ++ n ++ " : " ++ type ++ ";") := by
  refine not_mentions_between (endsApart_append _ (by decide)) (by decide) ?_ htype (by decide)
  exact not_mentions_between hends (by decide) hbefore hn (by decide)

/-! ## What holds a value -/

theorem word_variableName {n : String} (h : Word n.toList) (ordinal : Nat) :
    Word (variableName n ordinal).toList := by
  have hdigits := Scan.all_continuesName_toString ordinal
  have hmark : Word (n ++ "_v").toList := by
    rw [String.toList_append]
    exact h.append (by decide)
  unfold variableName
  split
  · rw [String.toList_append]
    exact h.append hdigits
  · split
    · exact hmark
    · rw [String.toList_append]
      exact hmark.append hdigits

theorem variableName_ne_outputName (n : String) (ordinal : Nat) :
    variableName n ordinal ≠ outputName := by
  intro h
  have hmark := hasVariableMark_variableName n ordinal
  rw [h] at hmark
  exact absurd hmark (by decide)

namespace Function

variable {f : Function}

theorem name_of_variableFor {p : PlacedDeclaration} {v : ProcessVariable}
    (h : f.variableFor p = some v) :
    p.declaration.hasVariable = true ∧
      ∃ ordinal, v.name = variableName p.declaration.name ordinal := by
  unfold variableFor at h
  split at h
  next hvariable =>
    cases h
    exact ⟨hvariable, _, rfl⟩
  next => cases h

theorem resultSignal_of_hidesOutput (h : f.hidesOutput = true) : f.resultSignal = heldResult :=
  if_pos h

/-- No value is held in the output. -/
theorem name_holderIn_ne (h : f.hidesOutput = true) (env : Env) (n : String) :
    (f.holderIn env n).name ≠ outputName := by
  unfold holderIn
  split
  next v hv =>
    obtain ⟨p, -, hp⟩ := Option.bind_eq_some_iff.1 hv
    obtain ⟨-, ordinal, hname⟩ := name_of_variableFor hp
    show v.name ≠ outputName
    rw [hname]
    exact variableName_ne_outputName _ ordinal
  next =>
    show (if n = outputName then f.resultSignal else n) ≠ outputName
    split
    · rw [resultSignal_of_hidesOutput h]
      decide
    · assumption

theorem word_resultSignal (f : Function) : Word f.resultSignal.toList := by
  unfold resultSignal
  split <;> exact .mk (by decide) (by decide)

theorem word_holderIn {env : Env} (henv : env.WellNamed) (n : String) (hn : Word n.toList) :
    Word (f.holderIn env n).name.toList := by
  unfold holderIn
  split
  next v hv =>
    obtain ⟨p, hp, hvariable⟩ := Option.bind_eq_some_iff.1 hv
    obtain ⟨-, ordinal, hname⟩ := name_of_variableFor hvariable
    show Word v.name.toList
    rw [hname, henv n p hp]
    exact word_variableName hn ordinal
  next =>
    show Word (if n = outputName then f.resultSignal else n).toList
    split
    · exact f.word_resultSignal
    · exact hn

/-- A local that is named like the output has no variable. -/
theorem holderIn_outputName {env : Env} (henv : env.WellNamed) :
    f.holderIn env outputName = .signal f.resultSignal := by
  have hnone : (env outputName).bind f.variableFor = none := by
    refine Option.bind_eq_none_iff.2 fun p hp => ?_
    have hvariable : p.declaration.hasVariable = false := by
      unfold Declaration.hasVariable
      simp [henv outputName p hp]
    unfold variableFor
    rw [hvariable]
    rfl
  unfold holderIn
  rw [hnone]
  exact congrArg Holder.signal (if_pos rfl)

/-! ## The process -/

theorem spelled_process (h : f.WellSpelled) :
    ∀ m ∈ Sequential.movesOfList f.process.body, m.Spelled := by
  intro m hm
  obtain ⟨m₀, hm₀, env, target, henv, htarget, rfl⟩ := f.moves_process.sound m hm
  rw [List.append_nil] at hm₀
  exact (h.moves m₀ hm₀).spelled_lower word_holderIn f.word_resultSignal henv htarget

/-- The output is shown in the process where an element of an array of its name is used. -/
theorem hidesOutputName_process (h : f.hidesOutput = true) :
    HidesOutputName (Sequential.movesOfList f.process.body) ↔
      ∀ m ∈ Block.moves f.body, outputName ∉ m.shownArrays := by
  have hresult : f.resultSignal ≠ outputName := by
    rw [resultSignal_of_hidesOutput h]
    decide
  have hlower {env target : Env} (m : Move) :
      outputName ∈ (m.lower (f.scheme Declaration.hasVariable) env target).shownNames ↔
        outputName ∈ m.shownArrays :=
    Move.output_mem_shownNames_lower (name_holderIn_ne h) hresult m
  constructor
  · intro hhides m hm harrays
    obtain ⟨m', hm', env, target, -, -, rfl⟩ := f.moves_process.complete m hm
    exact hhides _ hm' ((hlower m).2 harrays)
  · intro harrays m' hm' hshown
    obtain ⟨m, hm, env, target, -, -, rfl⟩ := f.moves_process.sound m' hm'
    rw [List.append_nil] at hm
    exact harrays m hm ((hlower m).1 hshown)

theorem outputFree_body (hspelled : f.WellSpelled) (h : f.hidesOutput = true) :
    OutputFree (Sequential.linesOfList 3 f.process.body) ↔
      ∀ m ∈ Block.moves f.body, outputName ∉ m.shownArrays := by
  rw [Sequential.outputFree_linesOfList _ _ (spelled_process hspelled), hidesOutputName_process h]

/-- A variable and the name it is declared by are words, and neither is that of the output. -/
theorem names_of_mem_locals (hspelled : f.WellSpelled) {v : ProcessVariable}
    (hv : v ∈ f.process.locals) :
    (Word v.name.toList ∧ v.name ≠ outputName) ∧ Word v.source.toList ∧ v.source ≠ outputName := by
  obtain ⟨o, ho, heq⟩ := List.mem_filterMap.1 hv
  rw [show o = some v from heq] at ho
  obtain ⟨⟨d, hd, hvariable, hsource⟩, hname, -⟩ := f.holds_of_mem ho
  have hword : Word v.source.toList := hsource ▸ hspelled.names d hd
  have hne : v.source ≠ outputName := by
    rw [← hsource]
    unfold Declaration.hasVariable at hvariable
    simp only [Bool.and_eq_true, decide_eq_true_eq] at hvariable
    exact hvariable.2
  rw [hname]
  exact ⟨⟨word_variableName hword v.ordinal, variableName_ne_outputName v.source v.ordinal⟩, hword,
    hne⟩

/-- A move that copies one name to another. -/
theorem copy_outputFree {a b : String} (ha : Word a.toList ∧ a ≠ outputName)
    (hb : Word b.toList ∧ b ≠ outputName) :
    (Move.set (.name a) (.name b)).Spelled ∧
      outputName ∉ (Move.set (.name a) (.name b)).shownNames := by
  refine ⟨List.forall_mem_cons.2 ⟨ha.1, List.forall_mem_singleton.2 hb.1⟩, ?_⟩
  refine List.not_mem_cons_of_ne_of_not_mem ha.2.symm ?_
  exact fun h => hb.2 (List.mem_singleton.1 h).symm

/-- Besides the body, nothing in a process mentions the output. -/
theorem outputFree_process (hspelled : f.WellSpelled)
    (hbody : OutputFree (Sequential.linesOfList 3 f.process.body)) :
    OutputFree f.process.lines := by
  have hmoves : ∀ m ∈ Sequential.movesOfList f.process.clocked,
      m.Spelled ∧ outputName ∉ m.shownNames := by
    rw [Process.moves_clocked]
    refine List.forall_mem_append.2 ⟨List.forall_mem_append.2 ⟨?_, ?_⟩, ?_⟩
    · intro m hm
      obtain ⟨v, hv, rfl⟩ := List.mem_map.1 hm
      obtain ⟨hname, hsource⟩ := names_of_mem_locals hspelled hv
      exact copy_outputFree hname hsource
    · have hspelled' := spelled_process hspelled
      intro m hm
      exact ⟨hspelled' m hm, (Sequential.outputFree_linesOfList _ _ hspelled').1 hbody m hm⟩
    · intro m hm
      obtain ⟨v, hv, rfl⟩ := List.mem_map.1 hm
      have hlocal := List.mem_reverse.1 (List.mem_filter.1 hv).1
      obtain ⟨hname, hsource⟩ := names_of_mem_locals hspelled hlocal
      exact copy_outputFree hsource hname
  have hclocked : OutputFree (Sequential.linesOfList 3 f.process.clocked) :=
    (Sequential.outputFree_linesOfList _ _ fun m hm => (hmoves m hm).1).2
      fun m hm => (hmoves m hm).2
  have hvariables : OutputFree (f.process.locals.map fun v =>
      s!"    variable {v.name} : {v.type.vector};") := by
    intro line hline
    obtain ⟨v, hv, rfl⟩ := List.mem_map.1 hline
    obtain ⟨hname, hne⟩ := (names_of_mem_locals hspelled hv).1
    exact not_mentions_declared (by decide : endsApart "    variable " = true) (by decide)
      (not_mentions_word hname hne) (not_mentions_vector v.type)
  have hfirst : OutputFree ["  process(clk, reset)"] := List.forall_mem_singleton.2 (by decide)
  have hmiddle : OutputFree ["  begin", "    if reset = '1' then", "      -- Reset logic",
      "    elsif rising_edge(clk) then"] := by
    unfold OutputFree
    decide
  have hlast : OutputFree ["    end if;", "  end process;"] := by
    unfold OutputFree
    decide
  simp only [Process.lines, outputFree_append]
  exact ⟨⟨⟨⟨hfirst, hvariables⟩, hmiddle⟩, hclocked⟩, hlast⟩

/-! ## Signals -/

theorem outputFree_arrayEvents {n : String} (hn : Word n.toList) (hne : n ≠ outputName)
    (type : ScalarType) (size : Nat) (init : Option (List Element)) :
    OutputFree (Event.lines (arrayEvents n type size init)) := by
  have hname := not_mentions_word hn hne
  have htypeName : ¬ Mentions outputName (n ++ "_type") :=
    not_mentions_suffixed (by decide) (by decide) hn
  have hinitName : ¬ Mentions outputName (n ++ "_init") :=
    not_mentions_suffixed (by decide) (by decide) hn
  have htype : ¬ Mentions outputName (arrayTypeLine n (lastIndex size) type) := by
    have hline : arrayTypeLine n (lastIndex size) type =
        "  type " ++ (n ++ "_type") ++ " is array (0 to " ++ toString (lastIndex size) ++ ") of " ++
          type.vector ++ ";" := by
      rw [arrayTypeLine_eq]
      simp only [String.append_assoc]
    rw [hline]
    refine not_mentions_between (endsApart_append _ (by decide)) (by decide) ?_
      (not_mentions_vector type) (by decide)
    refine not_mentions_between (endsApart_append _ (by decide)) (by decide) ?_
      (not_mentions_int _) (by decide)
    exact not_mentions_between (by decide) (by decide) (by decide) htypeName (by decide)
  have hsignal {contents : String} (h : ¬ Mentions outputName (n ++ "_type" ++ contents)) :
      ¬ Mentions outputName (arraySignalLine n contents) := by
    have hline : arraySignalLine n contents =
        "  signal " ++ n ++ " : " ++ (n ++ "_type" ++ contents) ++ ";" := by
      rw [arraySignalLine_eq]
      simp only [String.append_assoc]
    rw [hline]
    exact not_mentions_declared (by decide) (by decide) hname h
  cases init with
  | none =>
    rw [lines_arrayEvents_none]
    have hcontents : ¬ Mentions outputName (n ++ "_type" ++ "") := by
      rwa [String.append_empty]
    exact List.forall_mem_cons.2 ⟨htype, List.forall_mem_singleton.2 (hsignal hcontents)⟩
  | some elements =>
    have hconstant {entries : String} (hentries : ¬ Mentions outputName entries) :
        ¬ Mentions outputName (arrayConstantLine n entries) := by
      have hline : arrayConstantLine n entries =
          "  constant " ++ (n ++ "_init") ++ " : " ++
            ((n ++ "_type") ++ " := (" ++ entries ++ ")") ++ ";" := by
        rw [arrayConstantLine_eq]
        simp only [String.append_assoc]
        rfl
      rw [hline]
      refine not_mentions_declared (by decide) (by decide) hinitName ?_
      refine not_mentions_between (endsApart_append _ (by decide)) (by decide) ?_ hentries
        (by decide)
      rw [mentions_append (.inr (by decide))]
      exact not_or.2 ⟨htypeName, by decide⟩
    have hcontents : ¬ Mentions outputName (n ++ "_type" ++ (" := " ++ n ++ "_init")) := by
      have hsplit : n ++ "_type" ++ (" := " ++ n ++ "_init") =
          n ++ "_type" ++ " := " ++ (n ++ "_init") := by
        simp only [String.append_assoc]
      rw [hsplit, mentions_append (.inl (endsApart_append _ (by decide))),
        mentions_append (.inr (by decide))]
      exact not_or.2 ⟨not_or.2 ⟨htypeName, by decide⟩, hinitName⟩
    have hentries := not_mentions_initialEntries type size elements
    rw [lines_arrayEvents_some]
    exact List.forall_mem_cons.2 ⟨htype, List.forall_mem_cons.2 ⟨by decide,
      List.forall_mem_cons.2 ⟨hconstant hentries, List.forall_mem_singleton.2 (hsignal hcontents)⟩⟩⟩

theorem not_mentions_signalLine {n : String} (hn : Word n.toList) (hne : n ≠ outputName)
    (type : ScalarType) : ¬ Mentions outputName (signalLine n type) :=
  not_mentions_declared (by decide : endsApart "  signal " = true) (by decide)
    (not_mentions_word hn hne) (not_mentions_vector type)

theorem name_not_mem_of_mem_firstDeclarations {taken : List String} {ds : List Declaration}
    {d : Declaration} (h : d ∈ firstDeclarations taken ds) : d.name ∉ taken := by
  induction ds generalizing taken with
  | nil => cases h
  | cons first ds ih =>
    rw [firstDeclarations] at h
    split at h
    next => exact ih h
    next hfirst =>
      rcases List.mem_cons.1 h with rfl | hmem
      · simpa using hfirst
      · exact fun htaken => ih hmem (List.mem_cons_of_mem _ htaken)

/-- The output is no signal of the architecture. -/
theorem outputFree_signalEvents (hspelled : f.WellSpelled)
    (signature? : String → Option Signature) :
    OutputFree (Event.lines (f.signalEvents signature?)) := by
  have hlocals : OutputFree (f.signalDeclarations.flatMap Declaration.lines) := by
    intro line hline
    obtain ⟨d, hd, hlined⟩ := List.mem_flatMap.1 hline
    have hword := hspelled.names d (mem_of_mem_firstDeclarations hd)
    have hne : d.name ≠ outputName := fun heq =>
      name_not_mem_of_mem_firstDeclarations hd (heq ▸ List.mem_cons_self)
    unfold Declaration.lines Declaration.events at hlined
    split at hlined
    · rw [List.mem_singleton.1 hlined]
      exact not_mentions_signalLine hword hne d.type
    · exact outputFree_arrayEvents hword hne d.type _ _ line hlined
  have hheld : OutputFree (if f.hidesOutput then [signalLine heldResult f.returns] else []) := by
    split
    · have hword : Word heldResult.toList := .mk (by decide) (by decide)
      exact List.forall_mem_singleton.2 (not_mentions_signalLine hword (by decide) f.returns)
    · exact List.forall_mem_nil _
  have hcalls : OutputFree (f.calls.map fun c => signalLine c.wire (c.resultType signature?)) := by
    intro line hline
    obtain ⟨c, hc, rfl⟩ := List.mem_map.1 hline
    exact not_mentions_signalLine (word_resultWire (hspelled.calls c hc).1 c.unit)
      (resultWire_ne_outputName c.callee c.unit) _
  rw [lines_signalEvents]
  exact outputFree_append.2 ⟨outputFree_append.2 ⟨hlocals, hheld⟩, hcalls⟩

/-- In a function that is read, a scalar that is named like the output leaves no array of its
name. -/
theorem outputFree_arrayNoteLines (hspelled : f.WellSpelled)
    (hagree : f.mentions.Pairwise Mention.Agrees) (h : f.hidesOutput = true) :
    OutputFree f.arrayNoteLines := by
  intro line hline
  obtain ⟨name, hname, rfl⟩ := List.mem_map.1 hline
  obtain ⟨d, hd, rfl⟩ := List.mem_map.1 hname
  obtain ⟨hmem, harray⟩ := List.mem_filter.1 (mem_of_mem_firstDeclarations hd)
  have hne : d.name ≠ outputName := by
    intro heq
    obtain ⟨d', hd', hhides⟩ := List.any_eq_true.1 h
    unfold Declaration.hidesOutput at hhides
    simp only [Bool.and_eq_true, Bool.not_eq_true', decide_eq_true_eq] at hhides
    have hsame := isArray_eq_of_agrees hagree hmem hd' (heq.trans hhides.2.symm)
    rw [harray, hhides.1] at hsame
    cases hsame
  exact not_mentions_between (by decide : endsApart "  -- note: array " = true) (by decide)
    (by decide) (not_mentions_word (hspelled.names d hmem) hne) (by decide)

end Function

/-! ## Instances -/

/-- The text of an argument mentions the output if and only if the argument shows its name. -/
theorem Expr.mentions_output_argument {e : Expr} (h : e.Spelled) (width : Nat) :
    Mentions outputName (e.argument width) ↔ outputName ∈ e.shownNames := by
  -- A literal is put in a conversion to a vector.
  have hvector {before text : String} (hends : endsApart before = true)
      (hbefore : ¬ Mentions outputName before) (htext : ¬ Mentions outputName text) :
      ¬ Mentions outputName (before ++ text ++ ", " ++ toString width ++ "))") :=
    not_mentions_between (endsApart_append _ (by decide)) (by decide)
      (not_mentions_between hends (by decide) hbefore htext (by decide)) (not_mentions_nat width)
      (by decide)
  unfold argument
  split
  next text _ _ =>
    have htext := not_mentions_of_numeral plainWord_outputName.isWord h
    exact iff_of_false
      (hvector (by decide : endsApart "std_logic_vector(to_unsigned(" = true) (by decide) htext)
      List.not_mem_nil
  next value _ hvalue =>
    split
    · rw [shownNames_eq_nil_of_literal hvalue]
      exact iff_of_false
        (hvector (by decide : endsApart "std_logic_vector(to_signed(" = true) (by decide)
          (not_mentions_int value)) List.not_mem_nil
    · exact mentions_output_vhdl h
  next => exact mentions_output_vhdl h

theorem Call.outputFree_connections {c : Call} (h : c.Spelled) (signature : Option Signature) :
    OutputFree (c.connections signature) ↔ ∀ arg ∈ c.args, outputName ∉ arg.shownNames := by
  have hfirst : OutputFree ["clk", "reset"] := by
    unfold OutputFree
    decide
  have hlast : OutputFree [c.wire] := List.forall_mem_singleton.2
    (not_mentions_word (word_resultWire h.1 c.unit) (resultWire_ne_outputName c.callee c.unit))
  rw [connections, outputFree_append, outputFree_append, and_iff_left hlast, and_iff_right hfirst]
  constructor
  · intro hfree arg harg hshown
    obtain ⟨place, hplace⟩ := List.mem_iff_getElem?.1 harg
    have hmem : (arg, place) ∈ c.args.zipIdx := List.mk_mem_zipIdx_iff_getElem?.2 hplace
    exact hfree _ (List.mem_map_of_mem hmem)
      ((Expr.mentions_output_argument (h.2 arg harg) _).2 hshown)
  · intro hargs text htext hmentions
    obtain ⟨⟨arg, place⟩, hmem, rfl⟩ := List.mem_map.1 htext
    have harg := List.fst_mem_of_mem_zipIdx hmem
    exact hargs arg harg ((Expr.mentions_output_argument (h.2 arg harg) _).1 hmentions)

/-- An instance mentions the output where a port is connected to it. The name of a function stands
behind the name of its library. -/
theorem not_mentions_instanceLine {callee : String} (hcallee : Word callee.toList) (n : Nat)
    {connections : List String} (h : OutputFree connections) :
    ¬ Mentions outputName (instanceLine (instanceLabel callee n) callee connections) := by
  have hlabel : ¬ Mentions outputName (instanceLabel callee n) := by
    refine not_mentions_of_mem (c := '_') (all_isWordChar_of_word (word_instanceLabel hcallee n)) ?_
      (by decide)
    rw [show instanceLabel callee n = "u_" ++ callee ++ "_" ++ toString n from rfl]
    simp [String.toList_append]
  have hentity : ¬ Mentions outputName ("work." ++ callee) := by
    refine not_mentions_of_mem (c := '.') ?_ ?_ (by decide)
    · rw [String.toList_append, List.all_append, all_isWordChar_of_word hcallee]
      rfl
    · rw [String.toList_append]
      exact List.mem_append_left _ (by decide)
  have hports : ¬ Mentions outputName (commaSeparated connections) := by
    rw [mentions_commaSeparated]
    rintro ⟨text, htext, hmentions⟩
    exact h text htext hmentions
  have hline : instanceLine (instanceLabel callee n) callee connections =
      "  " ++ instanceLabel callee n ++ ": entity " ++ ("work." ++ callee) ++ " port map( " ++
        commaSeparated connections ++ " );" := by
    simp only [instanceLine, toString, String.append_assoc]
    rfl
  rw [hline]
  refine not_mentions_between (endsApart_append _ (by decide)) (by decide) ?_ hports (by decide)
  refine not_mentions_between (endsApart_append _ (by decide)) (by decide) ?_ hentity (by decide)
  exact not_mentions_between (by decide) (by decide) (by decide) hlabel (by decide)

theorem Function.outputFree_instanceEvents {f : Function} (hspelled : f.WellSpelled)
    {signature? : String → Option Signature}
    (h : ∀ c ∈ f.calls, OutputFree (c.connections (signature? c.callee))) :
    OutputFree (Event.lines (f.instanceEvents signature?)) := by
  rw [lines_instanceEvents]
  intro line hline
  obtain ⟨c, hc, hlined⟩ := List.mem_filterMap.1 hline
  obtain ⟨label, hlabel, rfl⟩ := Option.map_eq_some_iff.1 hlined
  obtain ⟨n, -, rfl⟩ := Option.map_eq_some_iff.1 hlabel
  exact not_mentions_instanceLine (hspelled.calls c hc).1 n (h c hc)

/-! ## The architecture -/

namespace Function

variable {f : Function}

/-- The lines of the architecture of a function, from its first signal on. -/
def architectureLines (signature? : String → Option Signature) (f : Function) : List String :=
  Event.lines (f.signalEvents signature?) ++
  ["begin"] ++
  f.resultDriverLines ++
  Event.lines (f.instanceEvents signature?) ++
  f.arrayNoteLines ++
  f.process.lines

theorem lines_designEvents (signature? : String → Option Signature) (f : Function) :
    Event.lines (f.designEvents signature?) =
      f.entityLines ++ [s!"architecture behavioral of {f.name} is"] ++
        f.architectureLines signature? ++ ["end architecture;", ""] := by
  have hfixed (text : String) : Event.lines [.line text] = [text] := rfl
  have hend : Event.lines [.line "end architecture;", .line ""] = ["end architecture;", ""] := rfl
  simp only [designEvents, architectureLines, Event.lines_append, Event.lines_map_line,
    Event.lines_map_notice, hfixed, hend, List.append_assoc, List.nil_append]

/-- A local that is named like the output is held in a signal of its own, and so are all results.
The body of the process and the ports of the instances may still mention the output. -/
structure HoldsOutput (signature? : String → Option Signature) (f : Function) : Prop where
  held : ∀ env : Env, env.WellNamed → f.holderIn env outputName = .signal heldResult
  returns : f.resultSignal = heldResult
  /-- The body does so where an element of an array of that name is used. -/
  body : OutputFree (Sequential.linesOfList 3 f.process.body) ↔
    ∀ m ∈ Block.moves f.body, outputName ∉ m.shownArrays
  /-- The ports of a call do so where an argument shows the name. -/
  ports : ∀ c ∈ f.calls, OutputFree (c.connections (signature? c.callee)) ↔
    ∀ arg ∈ c.args, outputName ∉ arg.shownNames

theorem holdsOutput_of_hidesOutput (hspelled : f.WellSpelled) (h : f.hidesOutput = true)
    (signature? : String → Option Signature) : f.HoldsOutput signature? where
  held env henv := by rw [holderIn_outputName henv, resultSignal_of_hidesOutput h]
  returns := resultSignal_of_hidesOutput h
  body := outputFree_body hspelled h
  ports c hc := Call.outputFree_connections (hspelled.calls c hc) _

/-- The local and all results are held in the signal, and the line that drives the output from it is
the only one that mentions the output. -/
structure KeepsOutputApart (signature? : String → Option Signature) (f : Function) : Prop where
  held : ∀ env : Env, env.WellNamed → f.holderIn env outputName = .signal heldResult
  returns : f.resultSignal = heldResult
  body : OutputFree (Sequential.linesOfList 3 f.process.body)
  ports : ∀ c ∈ f.calls, OutputFree (c.connections (signature? c.callee))
  driver : (f.architectureLines signature?).filter (fun line => Mentions outputName line) =
    ["  result <= internal_result;"]

theorem filter_eq_nil_of_outputFree {lines : List String} (h : OutputFree lines) :
    lines.filter (fun line => Mentions outputName line) = [] := by
  refine List.filter_eq_nil_iff.2 fun line hline => ?_
  simpa using h line hline

/-- Where the body and the ports do not mention the output, the line that drives it is the only one
that does. -/
theorem filter_architectureLines {signature? : String → Option Signature}
    (hspelled : f.WellSpelled) (hagree : f.mentions.Pairwise Mention.Agrees)
    (hhides : f.hidesOutput = true) (hbody : OutputFree (Sequential.linesOfList 3 f.process.body))
    (hports : ∀ c ∈ f.calls, OutputFree (c.connections (signature? c.callee))) :
    (f.architectureLines signature?).filter (fun line => Mentions outputName line) =
      ["  result <= internal_result;"] := by
  have hbegin : OutputFree ["begin"] := List.forall_mem_singleton.2 (by decide)
  have hdriver : f.resultDriverLines.filter (fun line => Mentions outputName line) =
      ["  result <= internal_result;"] := by
    rw [resultDriverLines, if_pos hhides]
    decide
  simp only [architectureLines, List.filter_append, hdriver,
    filter_eq_nil_of_outputFree (outputFree_signalEvents hspelled signature?),
    filter_eq_nil_of_outputFree hbegin,
    filter_eq_nil_of_outputFree (outputFree_instanceEvents hspelled hports),
    filter_eq_nil_of_outputFree (outputFree_arrayNoteLines hspelled hagree hhides),
    filter_eq_nil_of_outputFree (outputFree_process hspelled hbody), List.append_nil,
    List.nil_append]

/-- **The output is kept apart.** In every program that is read, the moves of the process of a
function are those of its body, and a scalar that is named like the output is held in a signal of
its own. The output is driven by one line and mentioned by no other if and only if the function has
such a scalar, uses no element of an array of that name, and shows the name in no argument of a
call. -/
theorem keepsOutputApart_iff {source : String} {program : Program}
    (h : (Program.prepare source).outcome = .ok program) (hf : f ∈ program.functions) :
    Event.lines (f.designEvents program.signature?) =
        f.entityLines ++ [s!"architecture behavioral of {f.name} is"] ++
          f.architectureLines program.signature? ++ ["end architecture;", ""] ∧
      Move.Become (f.scheme Declaration.hasVariable) [] (Block.moves f.body)
        (Sequential.movesOfList f.process.body) ∧
      (f.hidesOutput = true → f.HoldsOutput program.signature?) ∧
      (f.KeepsOutputApart program.signature? ↔
        f.hidesOutput = true ∧ (∀ m ∈ Block.moves f.body, outputName ∉ m.shownArrays) ∧
          ∀ c ∈ f.calls, ∀ arg ∈ c.args, outputName ∉ arg.shownNames) := by
  have hspelled := Program.wellSpelled_of_prepare h hf
  have hholds (hhides : f.hidesOutput = true) : f.HoldsOutput program.signature? :=
    holdsOutput_of_hidesOutput hspelled hhides program.signature?
  refine ⟨f.lines_designEvents program.signature?, f.moves_process, hholds, ?_, ?_⟩
  · rintro ⟨-, hreturns, hbody, hports, -⟩
    have hhides : f.hidesOutput = true := Decidable.byContradiction fun hfalse => by
      have hresult : f.resultSignal = outputName := if_neg hfalse
      exact absurd (hresult.symm.trans hreturns) (by decide)
    exact ⟨hhides, (hholds hhides).body.1 hbody,
      fun c hc => ((hholds hhides).ports c hc).1 (hports c hc)⟩
  · rintro ⟨hhides, harrays, hargs⟩
    obtain ⟨hheld, hreturns, hbody, hports⟩ := hholds hhides
    have hfree : ∀ c ∈ f.calls, OutputFree (c.connections (program.signature? c.callee)) :=
      fun c hc => (hports c hc).2 (hargs c hc)
    exact ⟨hheld, hreturns, hbody.2 harrays, hfree, filter_architectureLines hspelled
      (Program.pairwise_agrees_of_prepare h hf) hhides (hbody.2 harrays) hfree⟩

end Function

/-- A local that is set by a call, read in a condition and changed in a loop. -/
theorem keepsOutputApart_counter :
    let round : Assignment :=
      ⟨.name "result", .binary .sub (.name "result") (.number "1"), ⟨1, 52⟩⟩
    let f (unit : Option Nat) : Function := ⟨"f", .int, [⟨.int, "x"⟩],
      [.declare ⟨"result", .int, .scalar (some (.call "g" [.name "x"] unit ⟨1, 29⟩)), ⟨1, 16⟩⟩,
        .whileLoop (.name "result") [.assign round] ⟨1, 35⟩,
        .ret (some (.name "result")) ⟨1, 75⟩], ⟨1, 5⟩⟩
    let program : Program := ⟨[f (some 0)]⟩
    (Program.prepare
      "int f(int x) { int result = g(x); while (result) { result = result - 1; } return result; }"
      ).outcome = .ok program ∧
    (f (some 0)).KeepsOutputApart program.signature? ∧
    Sequential.linesOfList 3 (f (some 0)).process.body =
      ["      internal_result <= call_g_0_res;",
        "      while unsigned(internal_result) /= 0 loop",
        "        internal_result <= internal_result - 1;",
        "      end loop;",
        "      internal_result <= internal_result;"] := by
  intro round f program
  have hprepare : (Program.prepare
      "int f(int x) { int result = g(x); while (result) { result = result - 1; } return result; }"
      ).outcome = .ok program :=
    Program.outcome_prepare_eq_ok.2 ⟨⟨[f none]⟩, by with_unfolding_all rfl, rfl⟩
  have hmem : f (some 0) ∈ program.functions := List.mem_singleton_self _
  obtain ⟨-, -, -, hiff⟩ := Function.keepsOutputApart_iff hprepare hmem
  exact ⟨hprepare, hiff.2 ⟨by decide, by decide, by decide⟩, by decide⟩

/-- **An output that is read.** An argument of a call is wired to the output, although the local of
its name is held elsewhere; and the elements of an array of its name are those of the output. -/
theorem output_used_as_local :
    (∃ g f : Function,
      (Program.prepare
        "int g(int a) { return a; } int f(int x) { int result = x; return g(result); }").outcome =
          .ok ⟨[g, f]⟩ ∧
      f.hidesOutput = true ∧
      Event.lines (f.instanceEvents (Program.mk [g, f]).signature?) =
        ["  u_g_0: entity work.g port map( clk, reset, result, call_g_0_res );"]) ∧
    ∃ f : Function,
      (Program.prepare "int f(int x) { int result[2]; result[0] = x; return x; }").outcome =
        .ok ⟨[f]⟩ ∧
      Sequential.linesOfList 3 f.process.body =
        ["      result(0) <= x;", "      result <= x;"] := by
  let g : Function := ⟨"g", .int, [⟨.int, "a"⟩], [.ret (some (.name "a")) ⟨1, 16⟩], ⟨1, 5⟩⟩
  let f (unit : Option Nat) : Function := ⟨"f", .int, [⟨.int, "x"⟩],
    [.declare ⟨"result", .int, .scalar (some (.name "x")), ⟨1, 43⟩⟩,
      .ret (some (.call "g" [.name "result"] unit ⟨1, 66⟩)) ⟨1, 59⟩], ⟨1, 32⟩⟩
  let f' : Function := ⟨"f", .int, [⟨.int, "x"⟩],
    [.declare ⟨"result", .int, .array 2 none, ⟨1, 16⟩⟩,
      .assign ⟨.element "result" (.number "0") "0", .name "x", ⟨1, 31⟩⟩,
      .ret (some (.name "x")) ⟨1, 46⟩], ⟨1, 5⟩⟩
  refine ⟨⟨g, f (some 0), ?_, by decide, by decide⟩, f', ?_, by decide⟩
  · exact Program.outcome_prepare_eq_ok.2 ⟨⟨[g, f none]⟩, by with_unfolding_all rfl, rfl⟩
  · exact Program.outcome_prepare_eq_ok.2 ⟨⟨[f']⟩, by with_unfolding_all rfl, rfl⟩

end ClockedC
