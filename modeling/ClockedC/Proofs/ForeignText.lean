import ClockedC.Proofs.Concatenation
import ClockedC.Proofs.NumberedDesign
import ClockedC.Proofs.ParserAgreement
import ClockedC.Proofs.Printable
import ClockedC.Proofs.SourceLayout

/-!
# Foreign text

A source may have any text in its comments, directives, strings and character literals. None of it
gets into the design: this is written in printable characters, and nobody looks into a string.

* `Program.printable_lines_designEvents`: all lines of the design of a source are printable.
* `Program.view_ofTokens_strings`: tokens that differ in the texts of strings only are read as the
  same program.
* `compile_foreign_text` says both of the compilation of a source.
-/

namespace ClockedC

open Scan (Word Numeral)

/-! ## Names of functions and parameters -/

/-- The name of a function and those of its parameters are words. -/
structure Function.HeadSpelled (f : Function) : Prop where
  name : Word f.name.toList
  params : ∀ p ∈ f.params, Word p.name.toList

theorem ParametersForm.spelled {ts : List Token} {ps : List Param} (h : ParametersForm ts ps)
    (hts : TokensSpelled ts) : ∀ p ∈ ps, Word p.name.toList := by
  induction h with
  | one =>
    simp only [tokensSpelled_cons] at hts
    exact List.forall_mem_singleton.2 hts.2.1
  | more _ _ ih =>
    simp only [tokensSpelled_cons] at hts
    exact List.forall_mem_cons.2 ⟨hts.2.1, ih hts.2.2.2⟩

theorem ParameterListForm.spelled {ts : List Token} {ps : List Param} (h : ParameterListForm ts ps)
    (hts : TokensSpelled ts) : ∀ p ∈ ps, Word p.name.toList := by
  cases h with
  | some h => exact h.spelled hts
  | _ => exact List.forall_mem_nil _

namespace Parse

open Cursor

theorem mem_of_next? {ts rest : List Token} {t : Token} {h : Beyond rest ts}
    (hnext : next? ts = some ⟨t, rest, h⟩) : t ∈ ts := by
  rcases next?_cases ts with ⟨s, p, us, _, rfl, hcons⟩ | ⟨-, hnone⟩
  · rw [hcons] at hnext
    cases hnext
    exact List.mem_cons_self
  · rw [hnone] at hnext
    cases hnext

theorem function_headSpelled {returns : ScalarType} {n : String} {q : Position} {f : Function}
    {ts rest : List Token} (hn : Word n.toList) (hts : TokensSpelled ts)
    (h : Reads (function returns n q ts).outcome f rest) : f.HeadSpelled := by
  rw [function] at h
  simp only [reads_outcome_bind, Logged.outcome_lift, Read.exists, Pass.exists, Prod.exists,
    reads_outcome_pure, exists_and_right, exists_reads, exists_passes, reads_expect] at h
  obtain ⟨params, table, mid, hparams, u₁, mid₁, ⟨s, rfl⟩, u₂, mid₂, ⟨t, rfl⟩, ss, table', mid₃,
    hbody, rfl, rfl⟩ := h
  obtain ⟨a, rfl, ha, -⟩ := passes_parameterList.1 hparams
  exact ⟨hn, ha.spelled (tokensSpelled_append.1 hts).1⟩

theorem functions_headSpelled {ts : List Token} {fs : List Function} (hts : TokensSpelled ts)
    (h : (functions ts).outcome = .ok fs) : ∀ f ∈ fs, f.HeadSpelled := by
  fun_induction functions ts generalizing fs with
  | case1 ts hnext =>
    cases h
    exact List.forall_mem_nil _
  | case2 ts _ _ left _ returns _ name position _ left' hname _ inner left'' _ ih =>
    simp only [Logged.outcome_bind_eq_ok, Read.exists] at h
    obtain ⟨f, rest, hleft, hf, u, -, others, hothers, heq⟩ := h
    cases heq
    have hinner : Left inner ts := ((left.andThen left').andThen left'').left
    have hword : Word name.toList :=
      hts.of_subset left.left.subset ⟨.name name, position⟩ (mem_of_next? hname)
    refine List.forall_mem_cons.2 ⟨?_, ?_⟩
    · exact function_headSpelled hword (hts.of_subset hinner.subset) ⟨hleft, hf⟩
    · exact ih rest hleft (hts.of_subset (hinner.andPass hleft.left).subset) hothers
  | case3 ts _ rest left _ _ _ _ _ _ _ _ _ ih =>
    -- a notice is given, and the reading goes on
    obtain ⟨u, -, hrest⟩ := Logged.outcome_bind_eq_ok.1 h
    exact ih (hts.of_subset (left.left.andPass (left_afterSemicolon rest)).subset) hrest
  | case4 _ _ _ left _ _ _ _ ih | case5 _ _ _ left _ _ ih =>
    obtain ⟨u, -, hrest⟩ := Logged.outcome_bind_eq_ok.1 h
    exact ih (hts.of_subset left.left.subset) hrest

end Parse

theorem Program.headSpelled_of_ofSource {source : String} {program : Program}
    (h : (Program.ofSource source).outcome = .ok program) :
    ∀ f ∈ program.functions, f.HeadSpelled := by
  rw [Program.ofSource] at h
  cases hscan : scan source with
  | error e =>
    rw [hscan] at h
    cases h
  | ok ts =>
    rw [hscan] at h
    obtain ⟨fs, hfs, heq⟩ := Logged.outcome_bind_eq_ok.1 h
    cases heq
    exact Parse.functions_headSpelled (tokensSpelled_withEnd (spelled_of_tokens hscan)) hfs

theorem Program.headSpelled_of_prepare {source : String} {program : Program} {f : Function}
    (h : (Program.prepare source).outcome = .ok program) (hf : f ∈ program.functions) :
    f.HeadSpelled := by
  obtain ⟨p, hp, rfl⟩ := Program.outcome_prepare_eq_ok.1 h
  obtain ⟨g, hg, rfl⟩ := List.mem_map.1 hf
  obtain ⟨hname, hparams⟩ := Program.headSpelled_of_ofSource hp g hg
  exact ⟨hname, hparams⟩

/-! ## Texts between texts -/

theorem printable_nat (n : Nat) : Printable (toString n) :=
  List.all_eq_true.2 fun _ hc => isPrintable_of_isDigit (isDigit_of_mem_toString hc)

theorem printable_int (k : Int) : Printable (toString k) := by
  refine List.all_eq_true.2 fun c hc => ?_
  rw [toList_toString_int] at hc
  rcases List.mem_append.1 hc with hsign | hdigit
  · split at hsign
    · rw [List.mem_singleton.1 hsign]
      decide
    · cases hsign
  · exact isPrintable_of_isDigit (Nat.isDigit_of_mem_toDigits (by decide) (by decide) hdigit)

theorem printable_bitString (width n : Nat) : Printable (bitString width n) := by
  rw [Printable, bitString, String.toList_ofList]
  induction width with
  | zero => rfl
  | succ width ih =>
    have hbit : isPrintable (bitAt n width) = true := by
      unfold bitAt
      split <;> decide
    rw [bitChars, List.all_cons, hbit, ih]
    rfl

theorem printable_commaSeparated {texts : List String} (h : PrintableLines texts) :
    Printable (commaSeparated texts) := by
  induction texts with
  | nil => decide
  | cons text texts ih =>
    obtain ⟨htext, htexts⟩ := printableLines_cons.1 h
    cases texts with
    | nil =>
      rw [commaSeparated, String.intercalate_singleton]
      exact htext
    | cons next texts =>
      rw [commaSeparated, String.intercalate_cons_cons, printable_append, printable_append]
      exact ⟨⟨htext, by decide⟩, ih htexts⟩

/-! ## Signals -/

theorem printable_initialEntries (type : ScalarType) (size : Nat) (elements : List Element) :
    PrintableLines (initialEntries type size elements) := by
  refine printableLines_append.2 ⟨?_, ?_⟩
  · intro entry hentry
    obtain ⟨e, -, rfl⟩ := List.mem_map.1 hentry
    obtain ⟨n, hn⟩ := e.exists_bits_eq type
    rw [hn, printable_append, printable_append]
    exact ⟨⟨by decide, printable_bitString type.width n⟩, by decide⟩
  · split
    · exact List.forall_mem_singleton.2 (by decide)
    · exact List.forall_mem_nil _

theorem printable_signalLine {n : String} (hn : Word n.toList) (type : ScalarType) :
    Printable (signalLine n type) := by
  show Printable ("  signal " ++ n ++ " : " ++ type.vector ++ ";")
  simp only [printable_append]
  exact ⟨⟨⟨⟨by decide, printable_of_word hn⟩, by decide⟩, printable_vector type⟩, by decide⟩

theorem printable_arrayEvents {n : String} (hn : Word n.toList) (type : ScalarType) (size : Nat)
    (init : Option (List Element)) :
    PrintableLines (Event.lines (arrayEvents n type size init)) := by
  have hname := printable_of_word hn
  have htype : Printable (arrayTypeLine n (lastIndex size) type) := by
    simp only [arrayTypeLine_eq, printable_append]
    exact ⟨by decide, ⟨hname, by decide⟩,
      ⟨⟨⟨by decide, printable_int _⟩, by decide⟩, printable_vector type⟩, by decide⟩
  have hsignal {contents : String} (h : Printable contents) :
      Printable (arraySignalLine n contents) := by
    simp only [arraySignalLine_eq, printable_append]
    exact ⟨by decide, hname, ⟨⟨⟨by decide, hname⟩, by decide⟩, h⟩, by decide⟩
  cases init with
  | none =>
    rw [lines_arrayEvents_none]
    exact printableLines_cons.2 ⟨htype, List.forall_mem_singleton.2 (hsignal (by decide))⟩
  | some elements =>
    have hentries := printable_commaSeparated (printable_initialEntries type size elements)
    have hconstant : Printable
        (arrayConstantLine n (commaSeparated (initialEntries type size elements))) := by
      simp only [arrayConstantLine_eq, printable_append]
      exact ⟨by decide, ⟨hname, by decide⟩,
        ⟨⟨⟨by decide, hname⟩, by decide⟩, hentries⟩, by decide⟩
    have hcontents : Printable (" := " ++ n ++ "_init") := by
      simp only [printable_append]
      exact ⟨⟨by decide, hname⟩, by decide⟩
    rw [lines_arrayEvents_some]
    exact printableLines_cons.2 ⟨htype, printableLines_cons.2 ⟨by decide,
      printableLines_cons.2 ⟨hconstant, List.forall_mem_singleton.2 (hsignal hcontents)⟩⟩⟩

namespace Function

variable {f : Function}

theorem printable_signalEvents (h : f.WellSpelled) (signature? : String → Option Signature) :
    PrintableLines (Event.lines (f.signalEvents signature?)) := by
  rw [lines_signalEvents]
  refine printableLines_append.2 ⟨printableLines_append.2 ⟨?_, ?_⟩, ?_⟩
  · intro line hline
    obtain ⟨d, hd, hlined⟩ := List.mem_flatMap.1 hline
    have hword := h.names d (mem_of_mem_firstDeclarations hd)
    unfold Declaration.lines Declaration.events at hlined
    split at hlined
    · rw [List.mem_singleton.1 hlined]
      exact printable_signalLine hword d.type
    · exact printable_arrayEvents hword d.type _ _ line hlined
  · have hword : Word heldResult.toList := .mk (by decide) (by decide)
    split
    · exact List.forall_mem_singleton.2 (printable_signalLine hword f.returns)
    · exact List.forall_mem_nil _
  · intro line hline
    obtain ⟨c, hc, rfl⟩ := List.mem_map.1 hline
    exact printable_signalLine (word_resultWire (h.calls c hc).1 c.unit) _

theorem printable_arrayNoteLines (h : f.WellSpelled) : PrintableLines f.arrayNoteLines := by
  intro line hline
  obtain ⟨name, hname, rfl⟩ := List.mem_map.1 hline
  obtain ⟨d, hd, rfl⟩ := List.mem_map.1 hname
  have hmem : d ∈ f.declarations := (List.mem_filter.1 (mem_of_mem_firstDeclarations hd)).1
  show Printable ("  -- note: array " ++ d.name ++ " kept as signal (not variableized)")
  simp only [printable_append]
  exact ⟨⟨by decide, printable_of_word (h.names d hmem)⟩, by decide⟩

end Function

/-! ## Instances -/

theorem Expr.printable_argument {e : Expr} (h : e.Spelled) (width : Nat) :
    Printable (e.argument width) := by
  unfold argument
  split
  next text _ _ =>
    show Printable ("std_logic_vector(to_unsigned(" ++ text ++ ", " ++ toString width ++ "))")
    simp only [printable_append]
    exact ⟨⟨⟨⟨by decide, printable_of_numeral h⟩, by decide⟩, printable_nat width⟩, by decide⟩
  next value _ _ =>
    split
    · show Printable ("std_logic_vector(to_signed(" ++ toString value ++ ", " ++
        toString width ++ "))")
      simp only [printable_append]
      exact ⟨⟨⟨⟨by decide, printable_int value⟩, by decide⟩, printable_nat width⟩, by decide⟩
    · exact printable_vhdl h
  next => exact printable_vhdl h

theorem Function.printable_instanceEvents {f : Function} (h : f.WellSpelled)
    (signature? : String → Option Signature) :
    PrintableLines (Event.lines (f.instanceEvents signature?)) := by
  rw [lines_instanceEvents]
  intro line hline
  obtain ⟨c, hc, hlined⟩ := List.mem_filterMap.1 hline
  obtain ⟨label, hlabel, rfl⟩ := Option.map_eq_some_iff.1 hlined
  obtain ⟨n, -, rfl⟩ := Option.map_eq_some_iff.1 hlabel
  obtain ⟨hcallee, hargs⟩ := h.calls c hc
  have hports : PrintableLines (c.connections (signature? c.callee)) := by
    refine printableLines_append.2 ⟨printableLines_append.2 ⟨?_, ?_⟩, ?_⟩
    · unfold PrintableLines
      decide
    · intro text htext
      obtain ⟨⟨arg, place⟩, hmem, rfl⟩ := List.mem_map.1 htext
      exact Expr.printable_argument (hargs arg (List.fst_mem_of_mem_zipIdx hmem)) _
    · exact List.forall_mem_singleton.2 (printable_of_word (word_resultWire hcallee c.unit))
  show Printable ("  " ++ instanceLabel c.callee n ++ ": entity work." ++ c.callee ++
    " port map( " ++ commaSeparated (c.connections (signature? c.callee)) ++ " );")
  simp only [printable_append]
  exact ⟨⟨⟨⟨⟨⟨by decide, printable_of_word (word_instanceLabel hcallee n)⟩, by decide⟩,
    printable_of_word hcallee⟩, by decide⟩, printable_commaSeparated hports⟩, by decide⟩

/-! ## Designs -/

namespace Function

variable {f : Function}

theorem printable_entityLines (h : f.HeadSpelled) : PrintableLines f.entityLines := by
  have hname := printable_of_word h.name
  have hfirst : PrintableLines [s!"-- Function: {f.name}", s!"entity {f.name} is"] := by
    refine printableLines_cons.2 ⟨?_, List.forall_mem_singleton.2 ?_⟩
    · exact printable_append.2 ⟨by decide, hname⟩
    · exact printable_append.2 ⟨printable_append.2 ⟨by decide, hname⟩, by decide⟩
  have hports : PrintableLines ["  port (", "    clk : in std_logic;",
      "    reset : in std_logic;"] := by
    unfold PrintableLines
    decide
  have hparams : PrintableLines (f.params.map fun p => s!"    {p.name} : in {p.type.vector};") := by
    intro line hline
    obtain ⟨p, hp, rfl⟩ := List.mem_map.1 hline
    show Printable ("    " ++ p.name ++ " : in " ++ p.type.vector ++ ";")
    simp only [printable_append]
    exact ⟨⟨⟨⟨by decide, printable_of_word (h.params p hp)⟩, by decide⟩,
      printable_vector p.type⟩, by decide⟩
  have houtput : Printable s!"    {outputName} : out {f.returns.vector}" := by
    cases f.returns <;> decide
  have hlast : PrintableLines ["  );", "end entity;", ""] := by
    unfold PrintableLines
    decide
  exact printableLines_append.2 ⟨printableLines_append.2
    ⟨printableLines_append.2 ⟨hfirst, hports⟩, hparams⟩, printableLines_cons.2 ⟨houtput, hlast⟩⟩

/-- The lines of the design of a function are printable. -/
theorem printable_designEvents (h : f.WellSpelled) (hhead : f.HeadSpelled)
    (signature? : String → Option Signature) :
    PrintableLines (Event.lines (f.designEvents signature?)) := by
  have hname : Printable s!"architecture behavioral of {f.name} is" :=
    printable_append.2 ⟨printable_append.2 ⟨by decide, printable_of_word hhead.name⟩, by decide⟩
  have hdriver : PrintableLines f.resultDriverLines := by
    unfold resultDriverLines
    split
    · exact List.forall_mem_singleton.2 (by decide)
    · exact List.forall_mem_nil _
  have hlast : PrintableLines ["end architecture;", ""] := by
    unfold PrintableLines
    decide
  simp only [lines_designEvents, architectureLines, printableLines_append]
  exact ⟨⟨⟨printable_entityLines hhead, List.forall_mem_singleton.2 hname⟩,
    ⟨⟨⟨⟨printable_signalEvents h signature?, List.forall_mem_singleton.2 (by decide)⟩, hdriver⟩,
      printable_instanceEvents h signature?⟩, printable_arrayNoteLines h⟩,
      printable_process h⟩, hlast⟩

end Function

theorem printable_preambleLines : PrintableLines preambleLines := by
  unfold PrintableLines
  decide

theorem Event.printable_lines_flatMap {α : Type} {xs : List α} {events : α → List Event}
    (h : ∀ x ∈ xs, PrintableLines (lines (events x))) :
    PrintableLines (lines (xs.flatMap events)) := by
  induction xs with
  | nil => exact List.forall_mem_nil _
  | cons x xs ih =>
    obtain ⟨hx, hxs⟩ := List.forall_mem_cons.1 h
    rw [List.flatMap_cons, lines_append]
    exact printableLines_append.2 ⟨hx, ih hxs⟩

/-- All lines of the design of a source are printable. -/
theorem Program.printable_lines_designEvents {source : String} {program : Program}
    (h : (Program.prepare source).outcome = .ok program) (preamble : Preamble) :
    PrintableLines (Event.lines (program.designEvents preamble)) := by
  have hpreamble {c : Prop} [Decidable c] :
      PrintableLines (Event.lines (if c then preambleLines.map .line else [])) := by
    split
    · rw [Event.lines_map_line]
      exact printable_preambleLines
    · exact List.forall_mem_nil _
  have hheader : PrintableLines headerLines := by
    unfold PrintableLines
    decide
  have hfunction : ∀ f ∈ program.functions,
      PrintableLines (Event.lines (program.functionEvents preamble f)) := by
    intro f hf
    have hnumbered : f.numbered = f := by
      obtain ⟨p, -, rfl⟩ := Program.outcome_prepare_eq_ok.1 h
      obtain ⟨g, -, rfl⟩ := List.mem_map.1 hf
      rw [Function.numbered_numberCalls, Function.numbered_eq_numberCalls]
    have hdesign := Function.printable_designEvents (Program.wellSpelled_of_prepare h hf)
      (Program.headSpelled_of_prepare h hf) program.signature?
    rw [functionEvents, hnumbered, Event.lines_append, Event.lines_append]
    exact printableLines_append.2
      ⟨printableLines_append.2 ⟨List.forall_mem_nil _, hpreamble⟩, hdesign⟩
  rw [designEvents, Event.lines_append, Event.lines_append, Event.lines_map_line]
  exact printableLines_append.2
    ⟨printableLines_append.2 ⟨hheader, hpreamble⟩, Event.printable_lines_flatMap hfunction⟩

/-- A text of printable lines has no other characters than those of its lines and line breaks. -/
theorem eq_or_isPrintable_of_mem_unlines {lines : List String} (h : PrintableLines lines) :
    ∀ c ∈ (unlines lines).toList, c = '\n' ∨ isPrintable c = true := by
  induction lines with
  | nil =>
    intro c hc
    cases hc
  | cons line lines ih =>
    obtain ⟨hline, hlines⟩ := printableLines_cons.1 h
    intro c hc
    rw [unlines_cons, String.toList_append, String.toList_append] at hc
    rcases List.mem_append.1 hc with hfirst | hrest
    · rcases List.mem_append.1 hfirst with htext | hbreak
      · exact .inr (List.all_eq_true.1 hline c htext)
      · exact .inl (List.mem_singleton.1 hbreak)
    · exact ih hlines c hrest

/-! ## Texts of strings -/

/-- A string is seen, and its text is not. -/
def hideText (_ : String) : String := ""

/-- Tokens that agree, except for the texts of strings and for where they stand. -/
def SameButStrings (ts us : List Token) : Prop :=
  ts.map (fun t => t.symbol.blur hideText) = us.map fun t => t.symbol.blur hideText

section Strings

variable {ts us : List Token}

theorem Symbol.blur_hideText (s : Symbol) :
    (s.blur hideText).blur hideText = s.blur hideText := by
  cases s <;> rfl

/-- Nobody who does not look into strings sees whether their texts are hidden. -/
theorem alike_map_blur (ts : List Token) : Alike hideText ts (ts.map (Token.blur hideText)) := by
  unfold Alike
  induction ts with
  | nil => rfl
  | cons t ts ih =>
    obtain ⟨s, p⟩ := t
    rw [List.map_cons]
    by_cases hs : s = .eof
    · subst hs
      rfl
    · have hblur : s.blur hideText ≠ .eof := fun h => hs (Symbol.blur_eq_eof_iff.1 h)
      rw [seen_of_ne (t := ⟨s, p⟩) hs, seen_of_ne (t := Token.blur hideText ⟨s, p⟩) hblur, ih]
      simp only [Token.blur, Symbol.blur_hideText]

theorem withEnd_map_blur (ts : List Token) :
    Parse.withEnd (ts.map (Token.blur hideText)) =
      (Parse.withEnd ts).map (Token.blur hideText) := by
  unfold Parse.withEnd
  rw [List.getLast?_map]
  cases ts.getLast? with
  | none => rfl
  | some last =>
    have heof : (last.blur hideText).symbol = .eof ↔ last.symbol = .eof := Symbol.blur_eq_eof_iff
    dsimp only [Option.map_some]
    by_cases hlast : last.symbol = .eof
    · rw [if_pos hlast, if_pos (heof.2 hlast)]
    · rw [if_neg hlast, if_neg (mt heof.1 hlast), List.map_append]
      rfl

theorem Agrees.eq_ok {α : Type} {x : Except ParseError α} {a : α} {f : String → String}
    (h : Agrees f Eq x (.ok a)) : x = .ok a := by
  cases h with
  | ok h => rw [h]

theorem Agrees.exists_error {α : Type} {x : Except ParseError α} {e : ParseError}
    {f : String → String} (h : Agrees f Eq x (.error e : Except ParseError α)) :
    ∃ e', x = .error e' ∧ e'.blur f = e.blur f := by
  cases h with
  | error h => exact ⟨_, rfl, h⟩

/-- The texts of strings have no bearing on how tokens are read. -/
theorem Program.agrees_ofTokens_blur (ts : List Token) :
    Agrees hideText Eq (Program.ofTokens ts).outcome
      (Program.ofTokens (ts.map (Token.blur hideText))).outcome := by
  have hfunctions := Parse.agrees_functions (alike_map_blur (Parse.withEnd ts))
  rw [← withEnd_map_blur] at hfunctions
  refine (hfunctions.bind ?_).outcome
  rintro fs _ rfl
  exact ⟨rfl, .ok rfl⟩

/-- Tokens that differ in the texts of strings only are read as programs that are equal up to
positions, or refused for faults that differ in these texts only. -/
theorem Program.view_ofTokens_strings (h : SameButStrings ts us) :
    (∃ p q, (Program.ofTokens ts).outcome = .ok p ∧ (Program.ofTokens us).outcome = .ok q ∧
      p.unplaced = q.unplaced) ∨
    ∃ e e', (Program.ofTokens ts).outcome = .error e ∧ (Program.ofTokens us).outcome = .error e' ∧
      e.fault.blur hideText = e'.fault.blur hideText := by
  have hsame : SameSymbols (ts.map (Token.blur hideText)) (us.map (Token.blur hideText)) := by
    rw [SameSymbols, List.map_map, List.map_map]
    exact h
  have hts := Program.agrees_ofTokens_blur ts
  have hus := Program.agrees_ofTokens_blur us
  rcases view_eq_iff.1 (view_ofTokens hsame) with ⟨p, q, hp, hq, hpq⟩ | ⟨e, e', he, he', hfault⟩
  · rw [hp] at hts
    rw [hq] at hus
    exact .inl ⟨p, q, hts.eq_ok, hus.eq_ok, hpq⟩
  · rw [he] at hts
    rw [he'] at hus
    obtain ⟨e₁, he₁, hblur⟩ := hts.exists_error
    obtain ⟨e₂, he₂, hblur'⟩ := hus.exists_error
    have hfault₁ : e₁.fault.blur hideText = e.fault.blur hideText := congrArg ParseError.fault hblur
    have hfault₂ : e₂.fault.blur hideText = e'.fault.blur hideText :=
      congrArg ParseError.fault hblur'
    exact .inr ⟨e₁, e₂, he₁, he₂, by rw [hfault₁, hfault₂, hfault]⟩

end Strings

/-! ## Compilation -/

section Compilation

variable {source : String} {ts : List Token} (hscan : scan source = .ok ts)

include hscan

theorem compile_of_ofTokens_ok {p : Program} (h : (Program.ofTokens ts).outcome = .ok p)
    (preamble : Preamble) :
    (compile preamble source).outcome = .ok (p.numberCalls.designEvents preamble) := by
  have hsource : (Program.ofSource source).outcome = .ok p := by
    rw [Program.ofSource, hscan]
    exact h
  exact Logged.outcome_bind_eq_ok.2
    ⟨p.numberCalls, Program.outcome_prepare_eq_ok.2 ⟨p, hsource, rfl⟩, rfl⟩

theorem compile_of_ofTokens_error {e : ParseError} (h : (Program.ofTokens ts).outcome = .error e)
    (preamble : Preamble) : (compile preamble source).outcome = .error e := by
  have hsource : (Program.ofSource source).outcome = .error e := by
    rw [Program.ofSource, hscan]
    exact h
  have hprepare : (Program.prepare source).outcome = .error e := by
    show (Logged.bind _ _).outcome = _
    rw [Logged.bind, hsource]
  show (Logged.bind _ _).outcome = _
  rw [Logged.bind, hprepare]

end Compilation

/-- Two sources are accepted with the same design, or refused for faults that differ in the texts of
strings only. -/
def CompiledAlike (preamble : Preamble) (source source' : String) : Prop :=
  (∃ events events', (compile preamble source).outcome = .ok events ∧
    (compile preamble source').outcome = .ok events' ∧ Event.text events = Event.text events') ∨
  ∃ e e', (compile preamble source).outcome = .error e ∧
    (compile preamble source').outcome = .error e' ∧
    e.fault.blur hideText = e'.fault.blur hideText

theorem compiledAlike_of_sameButStrings {source source' : String} {ts us : List Token}
    (hts : scan source = .ok ts) (hus : scan source' = .ok us) (h : SameButStrings ts us)
    (preamble : Preamble) : CompiledAlike preamble source source' := by
  rcases Program.view_ofTokens_strings h with ⟨p, q, hp, hq, hpq⟩ | ⟨e, e', he, he', hfault⟩
  · have hnumbered : p.numberCalls.unplaced = q.numberCalls.unplaced := by
      rw [← p.numberCalls_unplaced, hpq, q.numberCalls_unplaced]
    refine .inl ⟨_, _, compile_of_ofTokens_ok hts hp preamble,
      compile_of_ofTokens_ok hus hq preamble, ?_⟩
    rw [designEvents_eq_of_unplaced hnumbered]
  · exact .inr ⟨e, e', compile_of_ofTokens_error hts he preamble,
      compile_of_ofTokens_error hus he' preamble, hfault⟩

/-- **No foreign text gets into a design.** Every character of the design of a source that is
accepted is a line break or a printable character of ASCII, whatever the source has in its comments,
directives and literals. Sources whose symbols agree, except for the texts of strings, are compiled
alike. So are sources that are made of the same lexemes, whatever comments and directives stand
around these. -/
theorem compile_foreign_text (preamble : Preamble) (source : String) :
    (∀ events, (compile preamble source).outcome = .ok events →
      ∀ c ∈ (Event.text events).toList, c = '\n' ∨ isPrintable c = true) ∧
    (∀ source' ts us, scan source = .ok ts → scan source' = .ok us → SameButStrings ts us →
      CompiledAlike preamble source source') ∧
    ∀ source' lexemes, Scan.MadeOf lexemes source.toList → Scan.MadeOf lexemes source'.toList →
      CompiledAlike preamble source source' := by
  refine ⟨?_, ?_, ?_⟩
  · intro events h
    obtain ⟨program, hprogram, hevents⟩ := Logged.outcome_bind_eq_ok.1 h
    obtain rfl := Except.ok.inj hevents
    exact eq_or_isPrintable_of_mem_unlines
      (Program.printable_lines_designEvents hprogram preamble)
  · intro source' ts us hts hus hsame
    exact compiledAlike_of_sameButStrings hts hus hsame preamble
  · intro source' lexemes h h'
    obtain ⟨ts, us, hts, hus, hsame⟩ := Scan.sameSymbols_of_madeOf h h' .start .start
    refine compiledAlike_of_sameButStrings hts hus ?_ preamble
    have hsymbols := congrArg (List.map (Symbol.blur hideText)) hsame
    rw [List.map_map, List.map_map] at hsymbols
    exact hsymbols

/-- A function with a string in it: once with a directive, a string and a comment beyond ASCII, and
once with another string and another comment. -/
theorem compile_foreign_text_strings :
    ∃ events events',
      (compile .once "#\u00e9\nint f()\x7b\"\u00e4\"; return 1; /*\u03b1*/\x7d").outcome =
        .ok events ∧
      (compile .once "int f() \x7b \"b\"; return 1;\x7d // \u03b2").outcome = .ok events' ∧
      Event.text events = Event.text events' ∧
      ∀ c ∈ (Event.text events).toList, c = '\n' ∨ isPrintable c = true := by
  have hts : scan "#\u00e9\nint f()\x7b\"\u00e4\"; return 1; /*\u03b1*/\x7d" =
      .ok [⟨.keyword (.type .int), ⟨2, 1⟩⟩, ⟨.name "f", ⟨2, 5⟩⟩, ⟨.punct .openParen, ⟨2, 6⟩⟩,
        ⟨.punct .closeParen, ⟨2, 7⟩⟩, ⟨.punct .openBrace, ⟨2, 8⟩⟩, ⟨.string "\u00e4", ⟨2, 9⟩⟩,
        ⟨.punct .semicolon, ⟨2, 12⟩⟩, ⟨.keyword .returnKw, ⟨2, 14⟩⟩, ⟨.number "1", ⟨2, 21⟩⟩,
        ⟨.punct .semicolon, ⟨2, 22⟩⟩, ⟨.punct .closeBrace, ⟨2, 29⟩⟩, ⟨.eof, ⟨2, 30⟩⟩] := by
    with_unfolding_all rfl
  have hus : scan "int f() \x7b \"b\"; return 1;\x7d // \u03b2" =
      .ok [⟨.keyword (.type .int), ⟨1, 1⟩⟩, ⟨.name "f", ⟨1, 5⟩⟩, ⟨.punct .openParen, ⟨1, 6⟩⟩,
        ⟨.punct .closeParen, ⟨1, 7⟩⟩, ⟨.punct .openBrace, ⟨1, 9⟩⟩, ⟨.string "b", ⟨1, 11⟩⟩,
        ⟨.punct .semicolon, ⟨1, 14⟩⟩, ⟨.keyword .returnKw, ⟨1, 16⟩⟩, ⟨.number "1", ⟨1, 23⟩⟩,
        ⟨.punct .semicolon, ⟨1, 24⟩⟩, ⟨.punct .closeBrace, ⟨1, 25⟩⟩, ⟨.eof, ⟨1, 31⟩⟩] := by
    with_unfolding_all rfl
  obtain ⟨hprintable, hstrings, -⟩ :=
    compile_foreign_text .once "#\u00e9\nint f()\x7b\"\u00e4\"; return 1; /*\u03b1*/\x7d"
  have haccepted := compile_of_ofTokens_ok hts
    (p := ⟨[⟨"f", .int, [], [.ret (some (.number "1")) ⟨2, 14⟩], ⟨2, 5⟩⟩]⟩)
    (by with_unfolding_all rfl) .once
  rcases hstrings _ _ _ hts hus rfl with ⟨events, events', h, h', htext⟩ | ⟨e, e', h, -, -⟩
  · exact ⟨events, events', h, h', htext, hprintable events h⟩
  · rw [haccepted] at h
    cases h

end ClockedC
