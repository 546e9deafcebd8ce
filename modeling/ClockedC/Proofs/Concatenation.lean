import ClockedC.Proofs.ProgramParser

/-!
# One program after another

Each function of a program is read for itself. Tokens that are read as functions without a complaint
may be put before other tokens: these are read or refused as if they stood alone, with the same
notices.

* `Parse.onlyComplains_function`: all that is told while a function is read are complaints, so
  nothing is told about one that is read quietly.
* `Parse.functions_append`: functions that come first change nothing, but for being read.
* `Program.ofTokens_append`: the same for whole programs.
-/

namespace ClockedC

/-! ## Complaints -/

namespace Logged

variable {α β : Type}

/-- All that is told are complaints. -/
def OnlyComplains (x : Logged α) : Prop :=
  ∀ n ∈ x.log, n.Complains

theorem bind_of_ok {x : Logged α} {a : α} (h : x.outcome = .ok a) (f : α → Logged β) :
    x >>= f = ⟨x.log ++ (f a).log, (f a).outcome⟩ := by
  show x.bind f = _
  rw [Logged.bind, h]

theorem bind_pure (x : Logged α) (f : α → β) :
    (x >>= fun a => pure (f a)) = ⟨x.log, x.outcome.map f⟩ := by
  show x.bind _ = _
  rw [Logged.bind]
  cases x.outcome with
  | error e => rfl
  | ok a =>
    dsimp only
    rw [log_pure, List.append_nil]
    rfl

theorem onlyComplains_pure (a : α) : (pure a : Logged α).OnlyComplains :=
  List.forall_mem_nil _

theorem onlyComplains_lift (x : Except ParseError α) : (liftM x : Logged α).OnlyComplains :=
  List.forall_mem_nil _

theorem onlyComplains_fail (e : ParseError) : (fail e : Logged α).OnlyComplains :=
  List.forall_mem_nil _

theorem onlyComplains_tell {n : Notice} (h : n.level = .warn) : (tell n).OnlyComplains :=
  List.forall_mem_singleton.2 (.inl h)

theorem OnlyComplains.bind {x : Logged α} {f : α → Logged β} (hx : x.OnlyComplains)
    (hf : ∀ a, (f a).OnlyComplains) : (x >>= f).OnlyComplains := by
  show (x.bind f).OnlyComplains
  unfold Logged.bind
  cases x.outcome with
  | error e => exact hx
  | ok a => exact List.forall_mem_append.2 ⟨hx, hf a⟩

/-- Where nothing but complaints could be told and none was, nothing was told. -/
theorem Quiet.log_eq_nil {x : Logged α} {a : α} (h : x.Quiet a) (hx : x.OnlyComplains) :
    x.log = [] :=
  List.eq_nil_iff_forall_not_mem.2 fun n hn => h.2 n hn (hx n hn)

end Logged

open Logged (onlyComplains_pure onlyComplains_lift onlyComplains_fail onlyComplains_tell)

namespace Parse

open Cursor

theorem onlyComplains_forStart (table : ShapeTable) (ts : List Token) :
    (forStart table ts).OnlyComplains := by
  unfold forStart
  split
  · exact onlyComplains_pure _
  split
  · refine (onlyComplains_lift _).bind fun r => ?_
    exact (onlyComplains_lift _).bind fun r => onlyComplains_pure _
  split
  · exact (onlyComplains_lift _).bind fun r => onlyComplains_pure _
  · exact (onlyComplains_tell rfl).bind fun u => onlyComplains_pure _

theorem onlyComplains_forIncrement (table : ShapeTable) (ts : List Token) :
    (forIncrement table ts).OnlyComplains := by
  unfold forIncrement
  split
  · exact onlyComplains_pure _
  split
  · exact onlyComplains_pure _
  split
  · exact (onlyComplains_lift _).bind fun r => onlyComplains_pure _
  · exact (onlyComplains_tell rfl).bind fun u => onlyComplains_pure _

theorem onlyComplains_forHeader (table : ShapeTable) (ts : List Token) :
    (forHeader table ts).OnlyComplains := by
  unfold forHeader
  refine (onlyComplains_lift _).bind fun r => ?_
  refine (onlyComplains_forStart table r.rest).bind fun r => ?_
  refine (onlyComplains_lift _).bind fun r' => ?_
  refine (onlyComplains_forIncrement r.value.2 r'.rest).bind fun r => ?_
  refine (onlyComplains_lift _).bind fun r => ?_
  exact (onlyComplains_lift _).bind fun r => onlyComplains_pure _

theorem onlyComplains_leaveOut (table : ShapeTable) {n : Notice} (h : n.level = .warn)
    (ts : List Token) : (leaveOut table n ts).OnlyComplains :=
  (onlyComplains_tell h).bind fun _ => onlyComplains_pure _

theorem onlyComplains_assignment (table : ShapeTable) (name : String) (position : Position)
    (ts : List Token) : (assignment table name position ts).OnlyComplains := by
  unfold assignment
  refine (onlyComplains_lift _).bind fun r => ?_
  dsimp only
  split
  · refine (onlyComplains_lift _).bind fun r => ?_
    exact (onlyComplains_lift _).bind fun r => onlyComplains_pure _
  · exact (onlyComplains_leaveOut table rfl r.rest).bind fun r => onlyComplains_pure _

mutual

theorem onlyComplains_block (place : Place) (inLoop : Bool) (depth : Nat) (table : ShapeTable)
    (ts : List Token) : (block place inLoop depth table ts).OnlyComplains := by
  rw [block]
  split
  · exact onlyComplains_fail _
  next t rest h _ =>
  have hlt := h.length_lt
  split
  · exact onlyComplains_pure _
  · exact (onlyComplains_block place inLoop _ table rest).bind fun r => onlyComplains_pure _
  · exact (onlyComplains_block place inLoop _ table rest).bind fun r => onlyComplains_pure _
  · refine (onlyComplains_statement inLoop table t rest).bind fun r => ?_
    have hlt' := (h.andPass r.left).length_lt
    exact (onlyComplains_block place inLoop _ r.value.2 r.rest).bind fun r => onlyComplains_pure _
termination_by 3 * ts.length

theorem onlyComplains_statement (inLoop : Bool) (table : ShapeTable) (t : Token)
    (ts : List Token) : (statement inLoop table t ts).OnlyComplains := by
  rw [statement]
  split
  · exact onlyComplains_leaveOut table rfl ts
  · exact (onlyComplains_lift _).bind fun r => onlyComplains_pure _
  · exact onlyComplains_assignment table _ t.position ts
  · exact (onlyComplains_lift _).bind fun r => onlyComplains_pure _
  · refine (onlyComplains_lift _).bind fun r => ?_
    have hlt := r.left.length_lt
    refine (onlyComplains_block _ inLoop 0 table r.rest).bind fun r' => ?_
    have hlt' := r'.left.length_lt
    exact (onlyComplains_alternative inLoop r'.value.2 r'.rest).bind fun r => onlyComplains_pure _
  · refine (onlyComplains_lift _).bind fun r => ?_
    have hlt := r.left.length_lt
    exact (onlyComplains_block _ true 0 table r.rest).bind fun r => onlyComplains_pure _
  · refine (onlyComplains_forHeader table ts).bind fun r => ?_
    have hlt := r.left.length_lt
    exact (onlyComplains_block _ true 0 r.value.2 r.rest).bind fun r => onlyComplains_pure _
  · exact (onlyComplains_lift _).bind fun r => onlyComplains_pure _
  · exact (onlyComplains_tell rfl).bind fun u => onlyComplains_pure _
  · exact onlyComplains_leaveOut table rfl ts
termination_by 3 * ts.length + 1

theorem onlyComplains_alternative (inLoop : Bool) (table : ShapeTable) (ts : List Token) :
    (alternative inLoop table ts).OnlyComplains := by
  rw [alternative]
  split
  · exact onlyComplains_pure _
  next rest h _ =>
  split
  · refine (onlyComplains_lift _).bind fun r => ?_
    have hlt := (h.andThen r.left).length_lt
    exact (onlyComplains_block _ inLoop 0 table r.rest).bind fun r => onlyComplains_pure _
  next rest' h' _ =>
  refine (onlyComplains_lift _).bind fun r => ?_
  have hlt := ((h.andThen h').andThen r.left).length_lt
  refine (onlyComplains_block _ inLoop 0 table r.rest).bind fun r' => ?_
  have hlt' := r'.left.length_lt
  exact (onlyComplains_alternative inLoop r'.value.2 r'.rest).bind fun r => onlyComplains_pure _
termination_by 3 * ts.length

end

theorem onlyComplains_function (returns : ScalarType) (n : String) (p : Position)
    (ts : List Token) : (function returns n p ts).OnlyComplains := by
  unfold function
  refine (onlyComplains_lift _).bind fun params => ?_
  refine (onlyComplains_lift _).bind fun r => ?_
  refine (onlyComplains_lift _).bind fun r => ?_
  exact (onlyComplains_block _ false 0 params.value.2 r.rest).bind fun r => onlyComplains_pure _

/-! ## Functions one after another -/

variable {ts rest : List Token} {f : Function} {fs : List Function}

/-- What follows a function is read, or refused, as if it stood alone. -/
theorem functions_cons {returns : ScalarType} {n : String} {p q r : Position}
    (h : ReadsQuietly (function returns n q ts) f rest) :
    functions (⟨.keyword (.type returns), p⟩ :: ⟨.name n, q⟩ :: ⟨.punct .openParen, r⟩ :: ts) =
      ⟨.functionParsed n :: (functions rest).log, (functions rest).outcome.map (f :: ·)⟩ := by
  obtain ⟨hleft, hquiet⟩ := h
  have hlog := hquiet.log_eq_nil (onlyComplains_function returns n q ts)
  rw [functions, next?_cons (t := ⟨.keyword (.type returns), p⟩) (by simp)]
  dsimp only
  rw [next?_cons (t := ⟨.name n, q⟩) (by simp)]
  dsimp only
  rw [accept_punct]
  dsimp only
  rw [Logged.bind_of_ok hquiet.1, hlog, List.nil_append, Logged.bind_of_ok rfl, Logged.bind_pure]
  rfl

theorem functions_of_functionForm (h : FunctionForm ts f) (hchecked : f.Checked)
    (us : List Token) :
    functions (ts ++ us) =
      ⟨.functionParsed f.name :: (functions us).log, (functions us).outcome.map (f :: ·)⟩ := by
  cases h with
  | @mk returns n a b params ss p q r s t u ha hb =>
    rw [List.cons_append, List.cons_append, List.append_assoc, parenthesized_append]
    have hread : ReadsQuietly
        (function returns n q (a ++ ⟨.punct .closeParen, s⟩ :: (braced t b u ++ us)))
        ⟨n, returns, params, ss, q⟩ us :=
      readsQuietly_function.2 ⟨a, b, params, ss, rfl, hchecked, ha, hb, s, t, u, rfl⟩
    exact functions_cons hread

/-- Functions that come first change nothing, but for being read. -/
theorem functions_append (h : ProgramForm ts fs) (hchecked : ∀ f ∈ fs, f.Checked)
    (us : List Token) :
    functions (ts ++ us) =
      ⟨fs.map (.functionParsed ·.name) ++ (functions us).log,
        (functions us).outcome.map (fs ++ ·)⟩ := by
  induction h with
  | nil =>
    cases hus : functions us with
    | mk log outcome => cases outcome <;> simp [hus, Except.map]
  | cons first others ih =>
    obtain ⟨hfirst, hothers⟩ := List.forall_mem_cons.1 hchecked
    rw [List.append_assoc, functions_of_functionForm first hfirst, ih hothers]
    cases (functions us).outcome <;> rfl

theorem functions_of_symbol_eof (h : symbol ts = .eof) : functions ts = pure [] := by
  rw [functions, next?_eq_none h]

/-- An end that is put behind some tokens has nothing to do with what stands before them. -/
theorem exists_withEnd_append (ts us : List Token) :
    ∃ vs, withEnd (ts ++ us) = ts ++ vs ∧ functions vs = functions (withEnd us) := by
  cases hlast : us.getLast? with
  | some t =>
    refine ⟨withEnd us, ?_, rfl⟩
    rw [withEnd, withEnd, List.getLast?_append, hlast]
    dsimp only [Option.or]
    split
    · rfl
    · rw [List.append_assoc]
  | none =>
    obtain rfl := List.getLast?_eq_none_iff.1 hlast
    have hnone : functions (withEnd []) = pure [] := functions_of_symbol_eof rfl
    rw [List.append_nil, hnone]
    cases hts : ts.getLast? with
    | none =>
      obtain rfl := List.getLast?_eq_none_iff.1 hts
      exact ⟨withEnd [], rfl, hnone⟩
    | some t =>
      by_cases heof : t.symbol = .eof
      · refine ⟨[], ?_, functions_of_symbol_eof rfl⟩
        rw [withEnd, hts, List.append_nil]
        exact if_pos heof
      · refine ⟨[⟨.eof, t.position⟩], ?_, functions_of_symbol_eof rfl⟩
        rw [withEnd, hts]
        exact if_neg heof

theorem exists_withEnd (hts : ∀ t ∈ ts, t.symbol ≠ .eof) :
    ∃ p, withEnd ts = ts ++ [⟨.eof, p⟩] := by
  cases hlast : ts.getLast? with
  | none =>
    obtain rfl := List.getLast?_eq_none_iff.1 hlast
    exact ⟨default, rfl⟩
  | some t =>
    refine ⟨t.position, ?_⟩
    rw [withEnd, hlast]
    exact if_neg (hts t (List.mem_of_getLast? hlast))

end Parse

namespace Program

theorem ofTokens_eq (ts : List Token) :
    ofTokens ts = ⟨(Parse.functions (Parse.withEnd ts)).log,
      (Parse.functions (Parse.withEnd ts)).outcome.map Program.mk⟩ :=
  Logged.bind_pure _ _

/-- What follows the functions of a program is read, or refused, as if it stood alone. -/
theorem ofTokens_of_programForm {ts : List Token} {fs : List Function} (h : ProgramForm ts fs)
    (hchecked : ∀ f ∈ fs, f.Checked) (us : List Token) :
    ofTokens (ts ++ us) = ⟨fs.map (.functionParsed ·.name) ++ (ofTokens us).log,
      (ofTokens us).outcome.map fun q => ⟨fs ++ q.functions⟩⟩ := by
  obtain ⟨vs, hvs, hsame⟩ := Parse.exists_withEnd_append ts us
  rw [ofTokens_eq, ofTokens_eq, hvs, Parse.functions_append h hchecked, hsame]
  cases (Parse.functions (Parse.withEnd us)).outcome <;> rfl

/-- **Functions are read independently.** Let tokens without an end be read as a program without a
warning and without passing over a token. Put before other tokens they change nothing about these:
the tokens together are read exactly if the others are, with the functions of both, and are refused
with the error of the others if not. The notices, too, are those of the one and then those of the
other. -/
theorem ofTokens_append {ts : List Token} {program : Program}
    (hts : ∀ t ∈ ts, t.symbol ≠ .eof) (h : (ofTokens ts).Quiet program) (us : List Token) :
    ofTokens (ts ++ us) = ⟨(ofTokens ts).log ++ (ofTokens us).log,
      (ofTokens us).outcome.map fun other => ⟨program.functions ++ other.functions⟩⟩ := by
  obtain ⟨p, hend⟩ := Parse.exists_withEnd hts
  rw [ofTokens, hend] at h
  obtain ⟨fs, hfs, hpure⟩ := Logged.quiet_bind.1 h
  obtain rfl := Logged.quiet_pure.1 hpure
  obtain ⟨hform, hchecked⟩ := Parse.functions_sound hts hfs
  have hlog : (ofTokens ts).log = fs.map (.functionParsed ·.name) := by
    have halone := ofTokens_of_programForm hform hchecked []
    rw [List.append_nil, ofTokens_eq [], Parse.functions_of_symbol_eof rfl] at halone
    rw [halone]
    exact List.append_nil _
  rw [ofTokens_of_programForm hform hchecked us, hlog]

/-- Behind `int f() { int a[3]; }` an array of the same name may have another size, and a jump is
still outside of all loops. -/
theorem ofTokens_append_array :
    let header (name : String) (line : Nat) : List Token :=
      [⟨.keyword (.type .int), ⟨line, 1⟩⟩, ⟨.name name, ⟨line, 5⟩⟩,
        ⟨.punct .openParen, ⟨line, 6⟩⟩, ⟨.punct .closeParen, ⟨line, 7⟩⟩,
        ⟨.punct .openBrace, ⟨line, 9⟩⟩]
    let array (size : String) (line : Nat) : List Token :=
      [⟨.keyword (.type .int), ⟨line, 11⟩⟩, ⟨.name "a", ⟨line, 15⟩⟩,
        ⟨.punct .openBracket, ⟨line, 16⟩⟩, ⟨.number size, ⟨line, 17⟩⟩,
        ⟨.punct .closeBracket, ⟨line, 18⟩⟩, ⟨.punct .semicolon, ⟨line, 19⟩⟩,
        ⟨.punct .closeBrace, ⟨line, 21⟩⟩]
    let leave : List Token := [⟨.keyword (.jump .leave), ⟨2, 11⟩⟩, ⟨.punct .semicolon, ⟨2, 16⟩⟩]
    let f : Function := ⟨"f", .int, [], [.declare ⟨"a", .int, .array 3 none, ⟨1, 11⟩⟩], ⟨1, 5⟩⟩
    let g : Function := ⟨"g", .int, [], [.declare ⟨"a", .int, .array 9 none, ⟨2, 11⟩⟩], ⟨2, 5⟩⟩
    let ts := header "f" 1 ++ array "3" 1
    (∀ t ∈ ts, t.symbol ≠ .eof) ∧ (ofTokens ts).Quiet ⟨[f]⟩ ∧
      (ofTokens (ts ++ (header "g" 2 ++ array "9" 2))).outcome = .ok ⟨[f, g]⟩ ∧
      (ofTokens (ts ++ (header "g" 2 ++ leave))).outcome =
        .error ⟨.jumpOutsideLoop .leave, 2⟩ := by
  intro header array leave f g ts
  have hfree : ∀ t ∈ ts, t.symbol ≠ .eof := by decide
  have hlog : (ofTokens ts).log = [.functionParsed "f"] := by with_unfolding_all rfl
  have hquiet : (ofTokens ts).Quiet ⟨[f]⟩ := by
    refine ⟨by with_unfolding_all rfl, ?_⟩
    rw [hlog, List.forall_mem_singleton]
    rintro (h | ⟨found, h⟩) <;> cases h
  have hread : (ofTokens (header "g" 2 ++ array "9" 2)).outcome = .ok ⟨[g]⟩ := by
    with_unfolding_all rfl
  have hrefused : (ofTokens (header "g" 2 ++ leave)).outcome =
      .error ⟨.jumpOutsideLoop .leave, 2⟩ := by
    with_unfolding_all rfl
  refine ⟨hfree, hquiet, ?_, ?_⟩
  · rw [ofTokens_append hfree hquiet, hread]
    rfl
  · rw [ofTokens_append hfree hquiet, hrefused]
    rfl

end Program

end ClockedC
