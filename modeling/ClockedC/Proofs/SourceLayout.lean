import ClockedC.Proofs.PositionBlind

/-!
# The layout of a source

A source is made of lexemes with trivia around them: blank characters and comments. The lexemes say
which symbols there are, and the trivia only say where these stand. This file shows that nothing
else depends on where they stand.

* `Scan.MadeOf` says which lexemes a text is made of.
* `Scan.symbol_unique`: a symbol is told by its lexeme.
* `Scan.sameSymbols_of_madeOf`: texts that are made of the same lexemes have the same symbols.
* `layout_blind`: token sequences with the same symbols, and sources that are made of the same
  lexemes, are compiled alike.
-/

namespace ClockedC

namespace Scan

/-- A text is made of some lexemes, with trivia before, between and after them. A lexeme is what the
symbol behind the trivia takes of the text. -/
inductive MadeOf : List (List Char) → List Char → Prop
  | done {w : List Char} (trivia : triviaLength w = .ok w.length) : MadeOf [] w
  | lexeme {w x rest : List Char} {c : Char} {xs : List (List Char)}
      (trivia : triviaLength (w ++ c :: (x ++ rest)) = .ok w.length)
      (symbol : (symbolAt c (x ++ rest)).map Prod.snd = .ok x.length) (others : MadeOf xs rest) :
      MadeOf ((c :: x) :: xs) (w ++ c :: (x ++ rest))

/-! ## Symbols and their lexemes -/

/-- A character literal is an escape, or one character, before a quote. -/
theorem characterAt_eq_ok_iff {cs : List Char} {value : Char} {n : Nat} :
    characterAt cs = .ok (value, n) ↔
      (∃ e ds, cs = '\\' :: e :: '\'' :: ds ∧ escape? e = some value ∧ n = 3) ∨
        ∃ ds, cs = value :: '\'' :: ds ∧ value ≠ '\\' ∧ n = 2 := by
  constructor
  · intro h
    unfold characterAt at h
    split at h
    · cases h
    · cases h
    · next e ds =>
      split at h
      · cases h
      · next v hescape =>
        split at h
        · next hclose =>
          cases h
          obtain ⟨ds', rfl⟩ := List.head?_eq_some_iff.1 hclose
          exact .inl ⟨e, ds', rfl, hescape, rfl⟩
        · cases h
    · next c ds hlast hescape =>
      split at h
      · next hclose =>
        cases h
        obtain ⟨ds', rfl⟩ := List.head?_eq_some_iff.1 hclose
        exact .inr ⟨ds', rfl, fun hc => hescape _ _ hc rfl, rfl⟩
      · cases h
  · rintro (⟨e, ds, rfl, hescape, rfl⟩ | ⟨ds, rfl, hvalue, rfl⟩)
    · rw [characterAt, hescape]
      rfl
    · rw [characterAt]
      · rfl
      · intro h
        exact absurd h hvalue
      · intro e es h
        exact absurd h hvalue

/-- The value of a character literal is told by the characters that it takes. -/
theorem character_unique {x rest rest' : List Char} {v v' : Char}
    (h : characterAt (x ++ rest) = .ok (v, x.length))
    (h' : characterAt (x ++ rest') = .ok (v', x.length)) : v = v' := by
  have hget (more : List Char) {i : Nat} (hi : i < x.length) : x[i]? = (x ++ more)[i]? :=
    (List.getElem?_append_left hi).symm
  rcases characterAt_eq_ok_iff.1 h with ⟨e, ds, hcs, hescape, hlength⟩ | ⟨ds, hcs, -, hlength⟩
  · rcases characterAt_eq_ok_iff.1 h' with ⟨e', ds', hcs', hescape', -⟩ | ⟨ds', hcs', -, hlength'⟩
    · have he : x[1]? = some e := by
        rw [hget rest (by omega), hcs]
        rfl
      have he' : x[1]? = some e' := by
        rw [hget rest' (by omega), hcs']
        rfl
      rw [he] at he'
      cases he'
      exact Option.some.inj (hescape.symm.trans hescape')
    · omega
  · rcases characterAt_eq_ok_iff.1 h' with
      ⟨e', ds', hcs', hescape', hlength'⟩ | ⟨ds', hcs', -, hlength'⟩
    · omega
    · have hv : x[0]? = some v := by
        rw [hget rest (by omega), hcs]
        rfl
      have hv' : x[0]? = some v' := by
        rw [hget rest' (by omega), hcs']
        rfl
      exact Option.some.inj (hv.symm.trans hv')

/-- An operator has no other text than its lexeme. -/
theorem operatorAt_eq_some {c : Char} {x rest : List Char} {op : String}
    (h : operatorAt (c :: (x ++ rest)) = some op) (hlength : op.length - 1 = x.length) :
    op = String.ofList (c :: x) := by
  have hprefix : op.toList <+: c :: (x ++ rest) := by
    have hfound := List.find?_some h
    exact List.isPrefixOf_iff_prefix.1 hfound
  have hpos : 0 < op.length := by
    have hmem := List.mem_of_find?_eq_some h
    have hall : ∀ o ∈ operators, 0 < o.length := by decide
    exact hall op hmem
  have htake : op.toList = c :: x := by
    have heq := List.prefix_iff_eq_take.1 hprefix
    rw [String.length_toList] at heq
    rw [heq, show op.length = x.length + 1 by omega, List.take_succ_cons, List.take_left]
  rw [← htake, String.ofList_toList]

/-- The text of a string, which is followed by a quote, is told by its lexeme. -/
theorem string_unique {x rest rest' : List Char} {n n' : Nat} (hn : n + 1 = x.length)
    (hn' : n' + 1 = x.length) : (x ++ rest).take n = (x ++ rest').take n' := by
  rw [List.take_append_of_le_length (by omega), List.take_append_of_le_length (by omega),
    show n = n' by omega]

/-- A symbol is told by its lexeme. -/
theorem symbol_unique {c : Char} {x rest rest' : List Char} {s s' : Symbol}
    (h : symbolAt c (x ++ rest) = .ok (s, x.length))
    (h' : symbolAt c (x ++ rest') = .ok (s', x.length)) : s = s' := by
  -- The cases follow the scanner: strings, characters, numbers, words, marks and operators.
  unfold symbolAt at h h'
  split at h
  · next hquote =>
    rw [if_pos hquote] at h'
    split at h
    · split at h'
      · obtain ⟨rfl, hn⟩ := Prod.mk.inj (Except.ok.inj h)
        obtain ⟨rfl, hn'⟩ := Prod.mk.inj (Except.ok.inj h')
        rw [string_unique hn hn']
      · cases h'
    · cases h
  next hquote =>
  rw [if_neg hquote] at h'
  split at h
  · next hmark =>
    rw [if_pos hmark] at h'
    cases hread : characterAt (x ++ rest) with
    | error fault =>
      rw [hread] at h
      cases h
    | ok r =>
      cases hread' : characterAt (x ++ rest') with
      | error fault =>
        rw [hread'] at h'
        cases h'
      | ok r' =>
        rw [hread] at h
        rw [hread'] at h'
        obtain ⟨rfl, hn⟩ := Prod.mk.inj (Except.ok.inj h)
        obtain ⟨rfl, hn'⟩ := Prod.mk.inj (Except.ok.inj h')
        obtain ⟨v, n⟩ := r
        obtain ⟨v', n'⟩ := r'
        dsimp only at hn hn'
        subst hn hn'
        exact congrArg Symbol.character (character_unique hread hread')
  next hmark =>
  rw [if_neg hmark] at h'
  split at h
  · next hdigit =>
    rw [if_pos hdigit] at h'
    obtain ⟨rfl, hn⟩ := Prod.mk.inj (Except.ok.inj h)
    obtain ⟨rfl, hn'⟩ := Prod.mk.inj (Except.ok.inj h')
    rw [hn, hn', List.take_left, List.take_left]
  next hdigit =>
  rw [if_neg hdigit] at h'
  split at h
  · next hname =>
    rw [if_pos hname] at h'
    obtain ⟨rfl, hn⟩ := Prod.mk.inj (Except.ok.inj h)
    obtain ⟨rfl, hn'⟩ := Prod.mk.inj (Except.ok.inj h')
    rw [hn, hn', List.take_left, List.take_left]
  next hname =>
  rw [if_neg hname] at h'
  cases hpunct : Punct.ofChar? c with
  | some mark =>
    rw [hpunct] at h h'
    obtain ⟨rfl, -⟩ := Prod.mk.inj (Except.ok.inj h)
    obtain ⟨rfl, -⟩ := Prod.mk.inj (Except.ok.inj h')
    rfl
  | none =>
    rw [hpunct] at h h'
    dsimp only at h h'
    split at h
    · next op hop =>
      split at h'
      · next op' hop' =>
        obtain ⟨rfl, hn⟩ := Prod.mk.inj (Except.ok.inj h)
        obtain ⟨rfl, hn'⟩ := Prod.mk.inj (Except.ok.inj h')
        rw [operatorAt_eq_some hop hn, operatorAt_eq_some hop' hn']
      · cases h'
    · cases h

/-! ## Texts -/

theorem tokens_of_trivia {p : Position} {w : List Char} (h : triviaLength w = .ok w.length) :
    tokens p w = .ok [⟨.eof, p.advance w⟩] := by
  rw [tokens, h]
  dsimp only
  split
  · rw [List.take_length]
  · next hdrop => simp at hdrop

theorem tokens_of_lexeme {p : Position} {w x rest : List Char} {c : Char} {s : Symbol}
    (hw : triviaLength (w ++ c :: (x ++ rest)) = .ok w.length)
    (hs : symbolAt c (x ++ rest) = .ok (s, x.length)) {ts : List Token}
    (hts : tokens ((p.advance w).advance (c :: x)) rest = .ok ts) :
    tokens p (w ++ c :: (x ++ rest)) = .ok (⟨s, p.advance w⟩ :: ts) := by
  rw [tokens, hw]
  dsimp only
  split
  · next hdrop => simp at hdrop
  · next c' rest' hdrop =>
    rw [List.drop_left] at hdrop
    cases hdrop
    rw [hs]
    dsimp only
    rw [List.take_left, List.take_left, List.drop_left, hts]

theorem exists_symbol {c : Char} {cs : List Char} {n : Nat}
    (h : (symbolAt c cs).map Prod.snd = .ok n) : ∃ s, symbolAt c cs = .ok (s, n) := by
  cases hread : symbolAt c cs with
  | error fault =>
    rw [hread] at h
    cases h
  | ok r =>
    rw [hread] at h
    cases h
    exact ⟨r.1, rfl⟩

/-- Texts that are made of the same lexemes have the same symbols. -/
theorem sameSymbols_of_madeOf {xs : List (List Char)} {cs ds : List Char} (h : MadeOf xs cs)
    (h' : MadeOf xs ds) (p q : Position) :
    ∃ ts us, tokens p cs = .ok ts ∧ tokens q ds = .ok us ∧ SameSymbols ts us := by
  induction h generalizing ds p q with
  | done trivia =>
    cases h' with
    | done trivia' =>
      exact ⟨_, _, tokens_of_trivia trivia, tokens_of_trivia trivia', rfl⟩
  | lexeme trivia symbol others ih =>
    cases h' with
    | lexeme trivia' symbol' others' =>
      obtain ⟨s, hs⟩ := exists_symbol symbol
      obtain ⟨s', hs'⟩ := exists_symbol symbol'
      obtain ⟨ts, us, hts, hus, hsame⟩ := ih others' _ _
      refine ⟨_, _, tokens_of_lexeme trivia hs hts, tokens_of_lexeme trivia' hs' hus, ?_⟩
      unfold SameSymbols
      rw [List.map_cons, List.map_cons, hsame, symbol_unique hs hs']

end Scan

/-! ## Whole programs -/

theorem SameSymbols.withEnd {ts us : List Token} (h : SameSymbols ts us) :
    SameSymbols (Parse.withEnd ts) (Parse.withEnd us) := by
  have hlast : ts.getLast?.map Token.symbol = us.getLast?.map Token.symbol := by
    rw [← List.getLast?_map, ← List.getLast?_map, h]
  unfold Parse.withEnd
  cases hts : ts.getLast? with
  | none =>
    rw [hts] at hlast
    rw [Option.map_eq_none_iff.1 hlast.symm]
    rfl
  | some last =>
    rw [hts] at hlast
    obtain ⟨last', hus, hsymbol⟩ := Option.map_eq_some_iff.1 hlast.symm
    rw [hus]
    dsimp only
    rw [hsymbol]
    split
    · exact h
    · unfold SameSymbols
      rw [List.map_append, List.map_append, h]
      rfl

/-- Programs that are read from the same symbols are equal up to positions, and so are faults. -/
theorem view_ofTokens {ts us : List Token} (h : SameSymbols ts us) :
    view Program.unplaced (Program.ofTokens ts).outcome =
      view Program.unplaced (Program.ofTokens us).outcome := by
  unfold Program.ofTokens
  refine view_outcome_bind (Parse.view_functions h.withEnd) ?_
  intro fs fs' hfs
  exact congrArg (fun fs => Except.ok (Program.mk fs)) hfs

theorem designEvents_eq_of_unplaced {p q : Program} (h : p.unplaced = q.unplaced)
    (preamble : Preamble) : p.designEvents preamble = q.designEvents preamble := by
  rw [← p.designEvents_unplaced, h, q.designEvents_unplaced]

/-- The source of a program has no bearing on its design beyond its symbols. -/
theorem view_compile {source source' : String} {ts us : List Token} (hts : scan source = .ok ts)
    (hus : scan source' = .ok us) (h : SameSymbols ts us) (preamble : Preamble) :
    view Event.text (compile preamble source).outcome =
      view Event.text (compile preamble source').outcome := by
  have hprepare : view Program.unplaced (Program.prepare source).outcome =
      view Program.unplaced (Program.prepare source').outcome := by
    unfold Program.prepare Program.ofSource
    rw [hts, hus]
    refine view_outcome_bind (view_ofTokens h) ?_
    intro p q hpq
    have hnumbered : p.numberCalls.unplaced = q.numberCalls.unplaced := by
      rw [← p.numberCalls_unplaced, hpq, q.numberCalls_unplaced]
    exact congrArg Except.ok hnumbered
  unfold compile
  refine view_outcome_bind hprepare ?_
  intro p q hpq
  exact congrArg (fun events => Except.ok (Event.text events))
    (designEvents_eq_of_unplaced hpq preamble)

/-- **Positions do not matter.** Token sequences with the same symbols are both read, as programs
that are equal up to positions and have the same design, or both refused, for the same fault. So
sources that are made of the same lexemes, however these are laid out, have the same design or the
same fault. -/
theorem layout_blind :
    (∀ ts us : List Token, ts.map Token.symbol = us.map Token.symbol →
      (∃ p q, (Program.ofTokens ts).outcome = .ok p ∧ (Program.ofTokens us).outcome = .ok q ∧
        p.unplaced = q.unplaced ∧
        ∀ preamble, Event.text (p.designEvents preamble) = Event.text (q.designEvents preamble)) ∨
      ∃ e e', (Program.ofTokens ts).outcome = .error e ∧
        (Program.ofTokens us).outcome = .error e' ∧ e.fault = e'.fault) ∧
    ∀ (lexemes : List (List Char)) (source source' : String),
      Scan.MadeOf lexemes source.toList → Scan.MadeOf lexemes source'.toList →
      ∀ preamble,
        (∃ events events', (compile preamble source).outcome = .ok events ∧
          (compile preamble source').outcome = .ok events' ∧
          Event.text events = Event.text events') ∨
        ∃ e e', (compile preamble source).outcome = .error e ∧
          (compile preamble source').outcome = .error e' ∧ e.fault = e'.fault := by
  constructor
  · intro ts us h
    rcases view_eq_iff.1 (view_ofTokens h) with ⟨p, q, hp, hq, hpq⟩ | herror
    · refine .inl ⟨p, q, hp, hq, hpq, ?_⟩
      intro preamble
      rw [designEvents_eq_of_unplaced hpq preamble]
    · exact .inr herror
  · intro lexemes source source' h h' preamble
    obtain ⟨ts, us, hts, hus, hsame⟩ := Scan.sameSymbols_of_madeOf h h' .start .start
    exact view_eq_iff.1 (view_compile hts hus hsame preamble)

/-- The same function with and without comments. -/
theorem layout_blind_comments :
    let lexemes : List (List Char) := [['i', 'n', 't'], ['f'], ['('], [')'], ['{'], ['}']]
    let source := "int f(){}"
    let source' := "int f ( ) // no\n{ /* b */ }\n"
    Scan.MadeOf lexemes source.toList ∧ Scan.MadeOf lexemes source'.toList ∧
    (∃ ts us, scan source = .ok ts ∧ scan source' = .ok us ∧ ts ≠ us ∧
      ((∃ p q, (Program.ofTokens ts).outcome = .ok p ∧ (Program.ofTokens us).outcome = .ok q ∧
        p.unplaced = q.unplaced ∧
        ∀ preamble, Event.text (p.designEvents preamble) = Event.text (q.designEvents preamble)) ∨
      ∃ e e', (Program.ofTokens ts).outcome = .error e ∧
        (Program.ofTokens us).outcome = .error e' ∧ e.fault = e'.fault)) ∧
    ((∃ events events', (compile .once source).outcome = .ok events ∧
        (compile .once source').outcome = .ok events' ∧
        Event.text events = Event.text events') ∨
      ∃ e e', (compile .once source).outcome = .error e ∧
        (compile .once source').outcome = .error e' ∧ e.fault = e'.fault) := by
  have hsource : Scan.MadeOf [['i', 'n', 't'], ['f'], ['('], [')'], ['{'], ['}']]
      "int f(){}".toList := by
    rw [show "int f(){}".toList = ['i', 'n', 't', ' ', 'f', '(', ')', '{', '}'] by decide]
    refine .lexeme (w := []) (x := ['n', 't']) ?_ ?_ (.lexeme (w := [' ']) (x := []) ?_ ?_
      (.lexeme (w := []) (x := []) ?_ ?_ (.lexeme (w := []) (x := []) ?_ ?_
      (.lexeme (w := []) (x := []) ?_ ?_ (.lexeme (w := []) (x := []) ?_ ?_ (.done ?_))))))
    all_goals with_unfolding_all rfl
  have hsource' : Scan.MadeOf [['i', 'n', 't'], ['f'], ['('], [')'], ['{'], ['}']]
      "int f ( ) // no\n{ /* b */ }\n".toList := by
    rw [show "int f ( ) // no\n{ /* b */ }\n".toList = ['i', 'n', 't', ' ', 'f', ' ', '(', ' ', ')',
      ' ', '/', '/', ' ', 'n', 'o', '\n', '{', ' ', '/', '*', ' ', 'b', ' ', '*', '/', ' ', '}',
      '\n'] by decide]
    refine .lexeme (w := []) (x := ['n', 't']) ?_ ?_ (.lexeme (w := [' ']) (x := []) ?_ ?_
      (.lexeme (w := [' ']) (x := []) ?_ ?_ (.lexeme (w := [' ']) (x := []) ?_ ?_
      (.lexeme (w := [' ', '/', '/', ' ', 'n', 'o', '\n']) (x := []) ?_ ?_
      (.lexeme (w := [' ', '/', '*', ' ', 'b', ' ', '*', '/', ' ']) (x := []) ?_ ?_
      (.done ?_))))))
    all_goals with_unfolding_all rfl
  have hscan : scan "int f(){}" = .ok [⟨.keyword (.type .int), ⟨1, 1⟩⟩, ⟨.name "f", ⟨1, 5⟩⟩,
      ⟨.punct .openParen, ⟨1, 6⟩⟩, ⟨.punct .closeParen, ⟨1, 7⟩⟩, ⟨.punct .openBrace, ⟨1, 8⟩⟩,
      ⟨.punct .closeBrace, ⟨1, 9⟩⟩, ⟨.eof, ⟨1, 10⟩⟩] := by
    with_unfolding_all rfl
  have hscan' : scan "int f ( ) // no\n{ /* b */ }\n" =
      .ok [⟨.keyword (.type .int), ⟨1, 1⟩⟩, ⟨.name "f", ⟨1, 5⟩⟩,
      ⟨.punct .openParen, ⟨1, 7⟩⟩, ⟨.punct .closeParen, ⟨1, 9⟩⟩, ⟨.punct .openBrace, ⟨2, 1⟩⟩,
      ⟨.punct .closeBrace, ⟨2, 11⟩⟩, ⟨.eof, ⟨3, 1⟩⟩] := by
    with_unfolding_all rfl
  intro lexemes source source'
  exact ⟨hsource, hsource', ⟨_, _, hscan, hscan', by decide, layout_blind.1 _ _ rfl⟩,
    layout_blind.2 lexemes source source' hsource hsource' .once⟩

end ClockedC
