import ClockedC.Parse.Program
import ClockedC.Proofs.StmtParser

/-!
# Reading programs by their grammar

A program that is read without a complaint is one that the grammar derives and that passes the
static checks, and each such program is read.

* `readsQuietly_function`: one function definition.
* `quiet_ofTokens_iff`: a whole program.
-/

namespace ClockedC

namespace Parse

open Cursor

/-! ## Functions -/

theorem readsQuietly_function {returns : ScalarType} {n : String} {q : Position}
    {ts rest : List Token} {f : Function} :
    ReadsQuietly (function returns n q ts) f rest ↔
      ∃ a b params ss, f = ⟨n, returns, params, ss, q⟩ ∧ f.Checked ∧
        ParameterListForm a params ∧ BlockForm b ss ∧
        ∃ s t u, ts = a ++ ⟨.punct .closeParen, s⟩ :: (braced t b u ++ rest) := by
  rw [function]
  simp only [readsQuietly_bind, Logged.quiet_lift, Read.exists, Pass.exists, Prod.exists,
    readsQuietly_pure, exists_and_right, exists_reads, exists_passes, exists_readsQuietly,
    reads_expect, braced_append]
  constructor
  · rintro ⟨params, table, mid, hparams, u₁, mid₁, ⟨s, rfl⟩, u₂, mid₂, ⟨t, rfl⟩, ss, table',
      mid₃, hbody, rfl, rfl⟩
    obtain ⟨a, rfl, ha, hfollows⟩ := passes_parameterList.1 hparams
    obtain ⟨b, u, rfl, hb, hfollows', hjumps⟩ := readsQuietly_block.1 hbody
    refine ⟨a, b, params, ss, rfl, ⟨?_, hjumps rfl⟩, ha, hb, s, t, u, rfl⟩
    exact ShapeTable.exists_follows_iff.1
      ⟨table', ShapeTable.follows_append.2 ⟨table, hfollows, hfollows'⟩⟩
  · rintro ⟨a, b, params, ss, rfl, hchecked, ha, hb, s, t, u, rfl⟩
    obtain ⟨table', hfollows⟩ := ShapeTable.exists_follows_iff.2 hchecked.agree
    obtain ⟨table, hfollows, hfollows'⟩ := ShapeTable.follows_append.1 hfollows
    exact ⟨params, table, _, passes_parameterList.2 ⟨a, rfl, ha, hfollows⟩, (), _, ⟨s, rfl⟩, (), _,
      ⟨t, rfl⟩, ss, table', rest,
      readsQuietly_block.2 ⟨b, u, rfl, hb, hfollows', fun _ => hchecked.jumps⟩, rfl, rfl⟩

/-! ## Sequences of functions -/

theorem quiet_functions_eof {ts : List Token} {fs : List Function} (heof : symbol ts = .eof) :
    (functions ts).Quiet fs ↔ fs = [] := by
  rw [functions, next?_eq_none heof]
  exact Logged.quiet_pure.trans eq_comm

theorem quiet_functions_cons {returns : ScalarType} {n : String} {p q r : Position}
    {ts : List Token} {fs : List Function} :
    (functions (⟨.keyword (.type returns), p⟩ :: ⟨.name n, q⟩ :: ⟨.punct .openParen, r⟩ ::
      ts)).Quiet fs ↔
      ∃ f rest others, ReadsQuietly (function returns n q ts) f rest ∧
        (functions rest).Quiet others ∧ fs = f :: others := by
  rw [functions, next?_cons (t := ⟨.keyword (.type returns), p⟩) (by simp)]
  dsimp only
  rw [next?_cons (t := ⟨.name n, q⟩) (by simp)]
  dsimp only
  rw [accept_punct]
  have hcalm : ¬ (Notice.functionParsed n).Complains := by
    rintro (h | ⟨found, h⟩) <;> cases h
  simp only [Logged.quiet_bind, Read.exists, Logged.quiet_tell, Logged.quiet_pure]
  constructor
  · rintro ⟨f, rest, h, hf, u, -, others, hothers, rfl⟩
    exact ⟨f, rest, others, ⟨h, hf⟩, hothers, rfl⟩
  · rintro ⟨f, rest, others, ⟨h, hf⟩, hothers, rfl⟩
    exact ⟨f, rest, h, hf, (), hcalm, others, hothers, rfl⟩

/-- Nothing but function definitions is read without a complaint. -/
theorem functions_cases {ts : List Token} {fs : List Function} (h : (functions ts).Quiet fs) :
    symbol ts = .eof ∨ ∃ returns n p q r us,
      ts = ⟨.keyword (.type returns), p⟩ :: ⟨.name n, q⟩ :: ⟨.punct .openParen, r⟩ :: us := by
  rcases next?_cases ts with ⟨s, p, us, _, rfl, hnext⟩ | ⟨heof, -⟩
  · rw [functions, hnext] at h
    match s with
    | .keyword (.type returns) =>
      dsimp only at h
      rcases next?_cases us with ⟨s', q, vs, _, rfl, hnext'⟩ | ⟨-, hnext'⟩
      · rw [hnext'] at h
        cases s' with
        | name n =>
          dsimp only at h
          rcases accept_cases (s := .punct .openParen) (by simp) vs with
            ⟨r, vs, -, rfl, -⟩ | ⟨-, hacc⟩
          · exact .inr ⟨returns, n, p, q, r, vs, rfl⟩
          · rw [hacc] at h
            exact absurd h (Logged.not_quiet_complaint (.inl rfl))
        | _ => exact absurd h (Logged.not_quiet_complaint (.inl rfl))
      · rw [hnext'] at h
        exact absurd h (Logged.not_quiet_complaint (.inl rfl))
    | .keyword (.jump _) | .keyword .returnKw | .keyword .ifKw | .keyword .elseKw
    | .keyword .whileKw | .keyword .forKw | .number _ | .character _ | .string _ | .name _
    | .operator _ | .punct _ | .eof =>
      exact absurd h (Logged.not_quiet_complaint (.inr ⟨_, rfl⟩))
  · exact .inl heof

/-- Where tokens before the end of the source have been taken, what is left still ends there. -/
theorem exists_append_eof {ts taken rest : List Token} {p : Position}
    (h : ts ++ [⟨.eof, p⟩] = taken ++ rest) (htaken : ∀ t ∈ taken, t.symbol ≠ .eof) :
    ∃ us, ts = taken ++ us ∧ rest = us ++ [⟨.eof, p⟩] := by
  rcases List.append_eq_append_iff.1 h with ⟨more, rfl, hmore⟩ | ⟨us, rfl, rfl⟩
  · cases more with
    | nil => exact ⟨[], by simp, by simpa using hmore.symm⟩
    | cons t more =>
      obtain ⟨rfl, -⟩ := List.cons.inj hmore
      exact absurd rfl (htaken _ (List.mem_append_right _ (List.mem_cons_self ..)))
  · exact ⟨us, rfl, rfl⟩

theorem functions_sound {ts : List Token} {p : Position} {fs : List Function}
    (hts : ∀ t ∈ ts, t.symbol ≠ .eof) (h : (functions (ts ++ [⟨.eof, p⟩])).Quiet fs) :
    ProgramForm ts fs ∧ ∀ f ∈ fs, f.Checked := by
  rcases functions_cases h with heof | ⟨returns, n, o, q, r, us, heq⟩
  · cases ts with
    | nil =>
      cases (quiet_functions_eof heof).1 h
      exact ⟨.nil, nofun⟩
    | cons t ts => exact absurd heof (hts t (List.mem_cons_self ..))
  · rw [heq] at h
    obtain ⟨f, rest, others, hf, hothers, rfl⟩ := quiet_functions_cons.1 h
    obtain ⟨taken, rfl, hfree⟩ := hf.choose.left
    obtain ⟨a, b, params, ss, rfl, hchecked, ha, hb, s, t, u, htaken⟩ := readsQuietly_function.1 hf
    have hfree' : ∀ t ∈ ⟨.keyword (.type returns), o⟩ :: ⟨.name n, q⟩ :: ⟨.punct .openParen, r⟩ ::
        taken, t.symbol ≠ .eof := by
      simp only [List.forall_mem_cons]
      exact ⟨nofun, nofun, nofun, hfree⟩
    obtain ⟨us, rfl, rfl⟩ := exists_append_eof heq hfree'
    have hform : FunctionForm (⟨.keyword (.type returns), o⟩ :: ⟨.name n, q⟩ ::
        ⟨.punct .openParen, r⟩ :: taken) ⟨n, returns, params, ss, q⟩ := by
      have hsame : taken = a ++ ⟨.punct .closeParen, s⟩ :: braced t b u := by
        rw [← List.cons_append, ← List.append_assoc a] at htaken
        exact List.append_cancel_right htaken
      rw [hsame, ← parenthesized_append]
      exact .mk ha hb
    obtain ⟨hforms, hall⟩ := functions_sound (List.forall_mem_append.1 hts).2 hothers
    exact ⟨.cons hform hforms, List.forall_mem_cons.2 ⟨hchecked, hall⟩⟩
termination_by ts.length
decreasing_by
  subst_vars
  simp +arith

theorem quiet_of_functionForm {ts rest : List Token} {f : Function} {fs : List Function}
    (h : FunctionForm ts f) (hchecked : f.Checked) (hfs : (functions rest).Quiet fs) :
    (functions (ts ++ rest)).Quiet (f :: fs) := by
  cases h with
  | @mk returns n a b params ss p q r s t u ha hb =>
    rw [List.cons_append, List.cons_append, List.append_assoc, parenthesized_append]
    refine quiet_functions_cons.2 ⟨_, rest, fs, ?_, hfs, rfl⟩
    exact readsQuietly_function.2 ⟨a, b, params, ss, rfl, hchecked, ha, hb, s, t, u, rfl⟩

theorem quiet_of_programForm {ts : List Token} {p : Position} {fs : List Function}
    (h : ProgramForm ts fs) (hchecked : ∀ f ∈ fs, f.Checked) :
    (functions (ts ++ [⟨.eof, p⟩])).Quiet fs := by
  induction h with
  | nil => exact (quiet_functions_eof rfl).2 rfl
  | cons first others ih =>
    obtain ⟨hfirst, hothers⟩ := List.forall_mem_cons.1 hchecked
    rw [List.append_assoc]
    exact quiet_of_functionForm first hfirst (ih hothers)

theorem withEnd_append_eof (ts : List Token) (p : Position) :
    withEnd (ts ++ [⟨.eof, p⟩]) = ts ++ [⟨.eof, p⟩] := by
  rw [withEnd, List.getLast?_append, List.getLast?_singleton]
  exact if_pos rfl

end Parse

/-- **Programs are read as the grammar derives them.** Tokens with the end of the source behind them
are read as a program, without a warning and without passing over a token, exactly if the grammar
derives the program from them and each of its functions passes the static checks. -/
theorem quiet_ofTokens_iff (ts : List Token) (p : Position) (program : Program)
    (hts : ∀ t ∈ ts, t.symbol ≠ .eof) :
    (Program.ofTokens (ts ++ [⟨.eof, p⟩])).Quiet program ↔
      ProgramForm ts program.functions ∧ ∀ f ∈ program.functions, f.Checked := by
  rw [Program.ofTokens, Parse.withEnd_append_eof]
  simp only [Logged.quiet_bind, Logged.quiet_pure]
  constructor
  · rintro ⟨fs, hfs, rfl⟩
    exact Parse.functions_sound hts hfs
  · rintro ⟨hform, hchecked⟩
    exact ⟨_, Parse.quiet_of_programForm hform hchecked, rfl⟩

/-- `int f(void) { int a[2]; { a[1] = 3; } while (1) { break; } }` is read. -/
theorem quiet_ofTokens_array :
    let declaration : List Token :=
      [⟨.keyword (.type .int), ⟨2, 1⟩⟩, ⟨.name "a", ⟨2, 5⟩⟩, ⟨.punct .openBracket, ⟨2, 6⟩⟩,
        ⟨.number "2", ⟨2, 7⟩⟩, ⟨.punct .closeBracket, ⟨2, 8⟩⟩, ⟨.punct .semicolon, ⟨2, 9⟩⟩]
    let assignment : List Token :=
      [⟨.name "a", ⟨3, 3⟩⟩, ⟨.punct .openBracket, ⟨3, 4⟩⟩, ⟨.number "1", ⟨3, 5⟩⟩,
        ⟨.punct .closeBracket, ⟨3, 6⟩⟩, ⟨.operator "=", ⟨3, 8⟩⟩, ⟨.number "3", ⟨3, 10⟩⟩,
        ⟨.punct .semicolon, ⟨3, 11⟩⟩]
    let loop : List Token :=
      [⟨.keyword .whileKw, ⟨4, 1⟩⟩, ⟨.punct .openParen, ⟨4, 7⟩⟩, ⟨.number "1", ⟨4, 8⟩⟩,
        ⟨.punct .closeParen, ⟨4, 9⟩⟩, ⟨.punct .openBrace, ⟨4, 11⟩⟩,
        ⟨.keyword (.jump .leave), ⟨4, 13⟩⟩, ⟨.punct .semicolon, ⟨4, 18⟩⟩,
        ⟨.punct .closeBrace, ⟨4, 20⟩⟩]
    let tokens : List Token :=
      [⟨.keyword (.type .int), ⟨1, 1⟩⟩, ⟨.name "f", ⟨1, 5⟩⟩, ⟨.punct .openParen, ⟨1, 6⟩⟩,
        ⟨.keyword (.type .void), ⟨1, 7⟩⟩, ⟨.punct .closeParen, ⟨1, 11⟩⟩] ++
      braced ⟨1, 13⟩ (declaration ++ (braced ⟨3, 1⟩ assignment ⟨3, 13⟩ ++ loop)) ⟨5, 1⟩
    let f : Function := ⟨"f", .int, [],
      [.declare ⟨"a", .int, .array 2 none, ⟨2, 1⟩⟩,
        .assign ⟨.element "a" (.number "1") "1", .number "3", ⟨3, 3⟩⟩,
        .whileLoop (.number "1") [.jump .leave ⟨4, 13⟩] ⟨4, 1⟩], ⟨1, 5⟩⟩
    (∀ t ∈ tokens, t.symbol ≠ .eof) ∧
      (Program.ofTokens (tokens ++ [⟨.eof, ⟨6, 1⟩⟩])).Quiet ⟨[f]⟩ := by
  intro declaration assignment loop tokens f
  have hnumber (text : String) (p : Position) :
      ExprAt BinaryOp.loosest [⟨.number text, p⟩] (.number text) :=
    ExprAt.number.loosen (by decide) (Nat.le_refl _)
  have hdeclaration : StmtForm declaration (.declare ⟨"a", .int, .array 2 none, ⟨2, 1⟩⟩) :=
    .declare (@DeclarationForm.mk .int "a" _ _ ⟨2, 1⟩ ⟨2, 5⟩ ⟨2, 9⟩ nofun
      (@InitForm.array "2" 2 ⟨2, 6⟩ ⟨2, 7⟩ ⟨2, 8⟩ rfl))
  have hassignment : StmtForm assignment
      (.assign ⟨.element "a" (.number "1") "1", .number "3", ⟨3, 3⟩⟩) :=
    @StmtForm.assign _ _ ⟨3, 11⟩ (@AssignmentForm.element "a" _ _ _ _ ⟨3, 3⟩ ⟨3, 4⟩ ⟨3, 6⟩ ⟨3, 8⟩
      (hnumber "1" ⟨3, 5⟩) (hnumber "3" ⟨3, 10⟩))
  have hloop : StmtForm loop (.whileLoop (.number "1") [.jump .leave ⟨4, 13⟩] ⟨4, 1⟩) :=
    @StmtForm.whileLoop _ _ _ _ ⟨4, 1⟩ ⟨4, 7⟩ ⟨4, 9⟩ ⟨4, 11⟩ ⟨4, 20⟩ (hnumber "1" ⟨4, 8⟩)
      (.stmt (@StmtForm.jump .leave ⟨4, 13⟩ ⟨4, 18⟩) .nil)
  have hbody : BlockForm (declaration ++ (braced ⟨3, 1⟩ assignment ⟨3, 13⟩ ++ loop)) f.body :=
    .stmt hdeclaration (.braces (.stmt hassignment .nil) (.stmt hloop .nil))
  have hfunction : FunctionForm tokens f :=
    @FunctionForm.mk .int "f" _ _ _ _ ⟨1, 1⟩ ⟨1, 5⟩ ⟨1, 6⟩ ⟨1, 11⟩ ⟨1, 13⟩ ⟨5, 1⟩
      (@ParameterListForm.void ⟨1, 7⟩) hbody
  have hform : ProgramForm (tokens ++ []) [f] := .cons hfunction .nil
  rw [List.append_nil] at hform
  have hfree : ∀ t ∈ tokens, t.symbol ≠ .eof := by decide
  have hchecked : f.Checked := by decide
  exact ⟨hfree, (quiet_ofTokens_iff tokens ⟨6, 1⟩ ⟨[f]⟩ hfree).2
    ⟨hform, List.forall_mem_singleton.2 hchecked⟩⟩

end ClockedC
