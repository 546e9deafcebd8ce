import ClockedC.Proofs.SourceLayout
import ClockedC.Proofs.Spelling

/-!
# Texts as lexemes and trivia

The scanner goes through a text character by character. This file says what it finds without a look
at how it goes: which characters are trivia, which are lexemes, and where a text is cut.

* `Scan.Gap` says which characters are trivia, and `Scan.Lexeme` which are written for a symbol.
* `Scan.triviaLength_eq_ok_iff`: the scanner passes over the trivia and nothing else.
* `Scan.lexeme_of_symbolAt` and `Scan.reaches_of_lexeme`: it takes the longest lexeme.
* `Scan.place_append`: it knows on which line and in which column it is.
* `Scan.Covers` says how tokens cover a text.
* `scan_covers`: the tokens of a text are those that cover it.
-/

namespace ClockedC

namespace Scan

/-! ## Positions -/

/-- The place behind some characters: one more than the line feeds among them, and one more than the
characters behind the last line feed. -/
def place (before : List Char) : Position :=
  ⟨1 + before.count '\n', 1 + (before.reverse.takeWhile (· ≠ '\n')).length⟩

theorem place_concat (before : List Char) (c : Char) :
    place (before ++ [c]) = (place before).step c := by
  rw [place, place, Position.step, List.count_append, List.reverse_append, List.reverse_singleton,
    List.singleton_append]
  by_cases hc : c = '\n'
  · subst hc
    rw [if_pos rfl, List.takeWhile_cons_of_neg (by decide)]
    rfl
  · have hcount : [c].count '\n' = 0 := List.count_eq_zero.2 (by simpa [eq_comm] using hc)
    rw [if_neg hc, hcount, List.takeWhile_cons_of_pos (by simpa using hc), List.length_cons]
    rfl

/-- Going on from a place leads to the place behind the characters passed. -/
theorem place_append (before cs : List Char) :
    place (before ++ cs) = (place before).advance cs := by
  induction cs generalizing before with
  | nil => rw [List.append_nil, Position.advance_nil]
  | cons c cs ih =>
    rw [List.append_cons, ih, place_concat, Position.advance_cons]

/-! ## Trivia -/

/-- The characters before `rest` are trivia: blank characters, lines from `//` or `#` up to their
end, and comments up to the first `*/`. A line ends before a line feed, or where the text ends. -/
inductive Gap : List Char → (rest : List Char) → Prop
  | nil {rest : List Char} : Gap [] rest
  | blank {c : Char} {w rest : List Char} (hc : isBlank c = true) (others : Gap w rest) :
      Gap (c :: w) rest
  | line {mark cs w rest : List Char} (hmark : mark = ['/', '/'] ∨ mark = ['#'])
      (hcs : '\n' ∉ cs) (hend : ∀ c ∈ (w ++ rest).head?, c = '\n') (others : Gap w rest) :
      Gap (mark ++ (cs ++ w)) rest
  | comment {cs w rest : List Char} (hcs : ¬ ['*', '/'] <:+: cs) (others : Gap w rest) :
      Gap ('/' :: '*' :: (cs ++ '*' :: '/' :: w)) rest

/-- Whether trivia begin at the front of a text. -/
def opensGap : List Char → Bool
  | '/' :: '/' :: _ | '/' :: '*' :: _ => true
  | c :: _ => isBlank c || c = '#'
  | [] => false

theorem trivia_blank {c : Char} (hc : isBlank c = true) (n : Nat) (cs : List Char) :
    trivia .between n (c :: cs) = trivia .between (n + 1) cs := by
  have hslash : c ≠ '/' := by
    rintro rfl
    exact absurd hc (by decide)
  rw [trivia, if_pos hc]
  · intro ds h
    exact absurd h hslash
  · intro ds h
    exact absurd h hslash

theorem trivia_stop {rest : List Char} (h : opensGap rest = false) (n : Nat) :
    trivia .between n rest = .ok n := by
  unfold opensGap at h
  split at h
  · cases h
  · cases h
  · rename_i c cs hline hcomment
    obtain ⟨hblank, hhash⟩ : isBlank c = false ∧ c ≠ '#' := by simpa using h
    rw [trivia, if_neg (by simp [hblank]), if_neg hhash]
    · intro ds h₁ h₂
      exact hline ds h₁ h₂
    · intro ds h₁ h₂
      exact hcomment ds h₁ h₂
  · rfl

theorem trivia_line {cs rest : List Char} (hcs : '\n' ∉ cs) (hend : ∀ c ∈ rest.head?, c = '\n')
    (n : Nat) : trivia .line n (cs ++ rest) = trivia .between (n + cs.length) rest := by
  induction cs generalizing n with
  | nil =>
    cases rest with
    | nil => rfl
    | cons c rest =>
      obtain rfl : c = '\n' := hend c rfl
      exact (trivia_blank (by decide) n rest).symm
  | cons c cs ih =>
    obtain ⟨hc, hcs⟩ : c ≠ '\n' ∧ '\n' ∉ cs := by simpa [eq_comm] using hcs
    rw [List.cons_append, trivia, if_neg hc, ih hcs, List.length_cons, Nat.add_assoc,
      Nat.add_comm 1]

theorem trivia_comment {cs : List Char} (hcs : ¬ ['*', '/'] <:+: cs) (start n : Nat)
    (rest : List Char) :
    trivia (.comment start) n (cs ++ '*' :: '/' :: rest) =
      trivia .between (n + cs.length + 2) rest := by
  induction cs generalizing n with
  | nil => rfl
  | cons c cs ih =>
    have hothers : ¬ ['*', '/'] <:+: cs := fun h => hcs (List.infix_cons h)
    have hhere : ∀ ds, c = '*' → cs ++ '*' :: '/' :: rest = '/' :: ds → False := by
      rintro ds rfl hds
      cases cs with
      | nil =>
        injection hds with hhead
        exact absurd hhead (by decide)
      | cons d cs =>
        injection hds with hhead
        subst hhead
        exact hcs ⟨[], cs, rfl⟩
    rw [List.cons_append, trivia, ih hothers, List.length_cons]
    · congr 1
      omega
    · exact hhere

theorem trivia_gap {w rest : List Char} (h : Gap w rest) (hrest : opensGap rest = false) (n : Nat) :
    trivia .between n (w ++ rest) = .ok (n + w.length) := by
  induction h generalizing n with
  | nil => exact trivia_stop hrest n
  | blank hc _ ih =>
    rw [List.cons_append, trivia_blank hc, ih hrest, List.length_cons, Nat.add_assoc,
      Nat.add_comm 1]
  | @line mark cs w rest hmark hcs hend _ ih =>
    have hopen : trivia .between n (mark ++ (cs ++ w) ++ rest) =
        trivia .line (n + mark.length) (cs ++ (w ++ rest)) := by
      rw [List.append_assoc, List.append_assoc]
      rcases hmark with rfl | rfl
      · rfl
      · rfl
    rw [hopen, trivia_line hcs hend, ih hrest]
    simp only [List.length_append, Nat.add_assoc]
  | @comment cs w rest hcs _ ih =>
    have hopen : trivia .between n ('/' :: '*' :: (cs ++ '*' :: '/' :: w) ++ rest) =
        trivia (.comment n) (n + 2) (cs ++ '*' :: '/' :: (w ++ rest)) := by
      rw [List.cons_append, List.cons_append, List.append_assoc]
      rfl
    rw [hopen, trivia_comment hcs, ih hrest]
    simp only [List.length_append, List.length_cons]
    congr 1
    omega

/-- What the scanner has passed when it stops, if it began in the middle of some trivia. -/
def GapFrom : Trivia → List Char → (rest : List Char) → Prop
  | .between, w, rest => Gap w rest
  | .line, w, rest =>
    ∃ cs v, w = cs ++ v ∧ '\n' ∉ cs ∧ (∀ c ∈ (v ++ rest).head?, c = '\n') ∧ Gap v rest
  | .comment _, w, rest => ∃ cs v, w = cs ++ '*' :: '/' :: v ∧ ¬ ['*', '/'] <:+: cs ∧ Gap v rest

theorem not_infix_cons {c : Char} {cs rest : List Char}
    (hhere : ∀ ds, c = '*' → cs ++ '*' :: rest = '/' :: ds → False)
    (hcs : ¬ ['*', '/'] <:+: cs) : ¬ ['*', '/'] <:+: c :: cs := by
  rw [List.infix_cons_iff]
  rintro (⟨ds, hds⟩ | hothers)
  · cases cs with
    | nil => simp at hds
    | cons d cs =>
      obtain ⟨rfl, rfl, rfl⟩ : '*' = c ∧ '/' = d ∧ ds = cs := by simpa using hds
      exact hhere (ds ++ '*' :: rest) rfl rfl
  · exact hcs hothers

/-- The scanner passes over trivia, up to where none begin. -/
theorem gapFrom_of_trivia {mode : Trivia} {n m : Nat} {cs : List Char}
    (h : trivia mode n cs = .ok m) :
    ∃ w rest, cs = w ++ rest ∧ m = n + w.length ∧ GapFrom mode w rest ∧ opensGap rest = false := by
  fun_induction trivia mode n cs with
  | case1 n =>
    cases h
    exact ⟨[], [], rfl, rfl, .nil, rfl⟩
  | case2 n cs ih =>
    obtain ⟨w, rest, rfl, rfl, ⟨ds, v, rfl, hds, hend, hv⟩, hrest⟩ := ih h
    refine ⟨['/', '/'] ++ (ds ++ v), rest, rfl, ?_, .line (.inl rfl) hds hend hv, hrest⟩
    simp only [List.length_append, List.length_cons, List.length_nil]
    omega
  | case3 n cs ih =>
    obtain ⟨w, rest, rfl, rfl, ⟨ds, v, rfl, hds, hv⟩, hrest⟩ := ih h
    refine ⟨'/' :: '*' :: (ds ++ '*' :: '/' :: v), rest, rfl, ?_, .comment hds hv, hrest⟩
    simp only [List.length_cons]
    omega
  | case4 n c cs _ _ hc ih =>
    obtain ⟨w, rest, rfl, rfl, hw, hrest⟩ := ih h
    refine ⟨c :: w, rest, rfl, ?_, .blank hc hw, hrest⟩
    rw [List.length_cons]
    omega
  | case5 n cs _ _ _ ih =>
    obtain ⟨w, rest, rfl, rfl, ⟨ds, v, rfl, hds, hend, hv⟩, hrest⟩ := ih h
    refine ⟨['#'] ++ (ds ++ v), rest, rfl, ?_, .line (.inr rfl) hds hend hv, hrest⟩
    simp only [List.length_append, List.length_cons, List.length_nil]
    omega
  | case6 n c cs hline hcomment hblank hhash =>
    cases h
    refine ⟨[], c :: cs, rfl, rfl, .nil, ?_⟩
    rw [opensGap]
    · simp [hblank, hhash]
    · exact hline
    · exact hcomment
  | case7 n =>
    cases h
    exact ⟨[], [], rfl, rfl, ⟨[], [], rfl, by simp, by simp, .nil⟩, rfl⟩
  | case8 n c cs ih =>
    obtain ⟨w, rest, rfl, rfl, hw, hrest⟩ := ih h
    refine ⟨c :: w, rest, rfl, by rw [List.length_cons]; omega, ?_, hrest⟩
    split at hw
    · next hc => exact ⟨[], c :: w, rfl, by simp, by simpa using hc, .blank (by rw [hc]; decide) hw⟩
    · next hc =>
      obtain ⟨ds, v, rfl, hds, hend, hv⟩ := hw
      exact ⟨c :: ds, v, rfl, by simp [hds, Ne.symm hc], hend, hv⟩
  | case9 => cases h
  | case10 start n cs ih =>
    obtain ⟨w, rest, rfl, rfl, hw, hrest⟩ := ih h
    refine ⟨'*' :: '/' :: w, rest, rfl, ?_, ⟨[], w, rfl, by simp, hw⟩, hrest⟩
    simp only [List.length_cons]
    omega
  | case11 start n c cs hhere ih =>
    obtain ⟨w, rest, rfl, rfl, ⟨ds, v, rfl, hds, hv⟩, hrest⟩ := ih h
    refine ⟨c :: (ds ++ '*' :: '/' :: v), rest, rfl, ?_, ⟨c :: ds, v, rfl, ?_, hv⟩, hrest⟩
    · rw [List.length_cons]
      omega
    · rw [List.append_assoc] at hhere
      exact not_infix_cons hhere hds

/-- The scanner passes over the trivia at the front of a text, and over nothing else. -/
theorem triviaLength_eq_ok_iff {cs : List Char} {n : Nat} :
    triviaLength cs = .ok n ↔
      ∃ w rest, cs = w ++ rest ∧ n = w.length ∧ Gap w rest ∧ opensGap rest = false := by
  constructor
  · intro h
    obtain ⟨w, rest, hcs, hn, hgap⟩ := gapFrom_of_trivia h
    exact ⟨w, rest, hcs, by omega, hgap⟩
  · rintro ⟨w, rest, rfl, rfl, hgap, hrest⟩
    rw [triviaLength, trivia_gap hgap hrest, Nat.zero_add]

/-! ## Lexemes -/

/-- What may stand between the quotes of a string: no quote and no line feed, unless a backslash
stands before it. -/
inductive Quoted : List Char → Prop
  | nil : Quoted []
  | plain {c : Char} {cs : List Char} (hquote : c ≠ '"') (hline : c ≠ '\n') (hescape : c ≠ '\\')
      (others : Quoted cs) : Quoted (c :: cs)
  | escaped {c : Char} {cs : List Char} (others : Quoted cs) : Quoted ('\\' :: c :: cs)

/-- The characters that are written for a symbol. A word is a name unless it is reserved, and a
character literal holds one character, or one of the known escapes. -/
inductive Lexeme : List Char → Symbol → Prop
  | number {x : List Char} (h : Numeral x) : Lexeme x (.number (String.ofList x))
  | keyword {k : Keyword} : Lexeme k.spelling.toList (.keyword k)
  | name {x : List Char} (h : Word x) (hfree : ∀ k : Keyword, k.spelling.toList ≠ x) :
      Lexeme x (.name (String.ofList x))
  | operator {op : String} (h : op ∈ operators) : Lexeme op.toList (.operator op)
  | punct {mark : Punct} : Lexeme [mark.char] (.punct mark)
  | string {body : List Char} (h : Quoted body) :
      Lexeme ('"' :: (body ++ ['"'])) (.string (String.ofList body))
  | character {c : Char} (hc : c ≠ '\\') : Lexeme ['\'', c, '\''] (.character c)
  | escape {e value : Char} (h : escape? e = some value) :
      Lexeme ['\'', '\\', e, '\''] (.character value)

/-- A string is closed by the first quote that has no backslash before it. -/
theorem closingQuote_eq_some_iff {n m : Nat} {cs : List Char} :
    closingQuote n cs = some m ↔
      ∃ body rest, cs = body ++ '"' :: rest ∧ Quoted body ∧ m = n + body.length := by
  constructor
  · intro h
    fun_induction closingQuote n cs with
    | case1 => cases h
    | case2 n cs =>
      cases h
      exact ⟨[], cs, rfl, .nil, rfl⟩
    | case3 => cases h
    | case4 => cases h
    | case5 n c cs ih =>
      obtain ⟨body, rest, rfl, hbody, rfl⟩ := ih h
      refine ⟨'\\' :: c :: body, rest, rfl, .escaped hbody, ?_⟩
      simp only [List.length_cons]
      omega
    | case6 n c cs hquote hline hlast hescape ih =>
      obtain ⟨body, rest, rfl, hbody, rfl⟩ := ih h
      refine ⟨c :: body, rest, rfl, .plain hquote hline ?_ hbody, ?_⟩
      · rintro rfl
        cases body with
        | nil => exact hescape '"' rest rfl rfl
        | cons d body => exact hescape d (body ++ '"' :: rest) rfl rfl
      · rw [List.length_cons]
        omega
  · rintro ⟨body, rest, rfl, hbody, rfl⟩
    induction hbody generalizing n with
    | nil => rfl
    | plain hquote hline hescape _ ih =>
      rw [List.cons_append, closingQuote, ih, List.length_cons, Nat.add_assoc, Nat.add_comm 1]
      · exact hquote
      · exact hline
      · intro h
        exact absurd h hescape
      · intro d ds h
        exact absurd h hescape
    | escaped _ ih =>
      rw [List.cons_append, List.cons_append, closingQuote, ih]
      simp only [List.length_cons]
      congr 1
      omega

theorem ofSpelling?_eq_some_iff {text : String} {k : Keyword} :
    Keyword.ofSpelling? text = some k ↔ k.spelling = text := by
  constructor
  · intro h
    have hfound := List.find?_some h
    exact of_decide_eq_true hfound
  · rintro rfl
    cases k with
    | type t => cases t <;> decide
    | jump j => cases j <;> decide
    | returnKw | ifKw | elseKw | whileKw | forKw => decide

theorem word_eq_name {x : List Char} (hfree : ∀ k : Keyword, k.spelling.toList ≠ x) :
    word (String.ofList x) = .name (String.ofList x) := by
  have hnone : Keyword.ofSpelling? (String.ofList x) = none := by
    refine Option.eq_none_iff_forall_ne_some.2 ?_
    intro k hk
    rw [ofSpelling?_eq_some_iff] at hk
    exact hfree k (by rw [hk, String.toList_ofList])
  rw [word, hnone]

theorem lexeme_word {x : List Char} (h : Word x) : Lexeme x (word (String.ofList x)) := by
  unfold word
  split
  · next k hk =>
    rw [← String.toList_ofList (l := x), ← ofSpelling?_eq_some_iff.1 hk]
    exact .keyword
  · next hfree =>
    refine .name h fun k hk => ?_
    have hword : Keyword.ofSpelling? (String.ofList x) = some k := by
      rw [ofSpelling?_eq_some_iff, ← hk, String.ofList_toList]
    rw [hfree] at hword
    cases hword

theorem numberTail_le (cs : List Char) : numberTail cs ≤ cs.length := by
  have hwhole : (cs.takeWhile Char.isDigit).length ≤ cs.length :=
    (List.takeWhile_prefix _).length_le
  rw [numberTail]
  dsimp only
  split
  · next ds hds =>
    have hlength := congrArg List.length hds
    have hfraction : (ds.takeWhile Char.isDigit).length ≤ ds.length :=
      (List.takeWhile_prefix _).length_le
    rw [List.length_drop, List.length_cons] at hlength
    split <;> omega
  · exact hwhole

theorem length_le_takeWhile {p : Char → Bool} {xs cs : List Char} (hall : xs.all p = true)
    (h : xs <+: cs) : xs.length ≤ (cs.takeWhile p).length := by
  obtain ⟨rest, rfl⟩ := h
  rw [List.takeWhile_append_of_pos (List.all_eq_true.1 hall), List.length_append]
  omega

/-- A number takes as many characters as it can. -/
theorem length_le_numberTail {d : Char} {ds cs : List Char} (h : Numeral (d :: ds))
    (hds : ds <+: cs) : ds.length ≤ numberTail cs := by
  rw [numberTail]
  dsimp only
  cases h with
  | whole _ others =>
    have hwhole := length_le_takeWhile others hds
    split
    · split <;> omega
    · exact hwhole
  | @decimal _ es fs _ others nonempty fraction =>
    obtain ⟨rest, rfl⟩ := hds
    -- the point ends the digits before it
    have hwhole : ((es ++ '.' :: fs) ++ rest).takeWhile Char.isDigit = es := by
      rw [List.append_assoc, List.takeWhile_append_of_pos (List.all_eq_true.1 others),
        List.cons_append, List.takeWhile_cons_of_neg (by decide), List.append_nil]
    have hfraction : fs.length ≤ ((fs ++ rest).takeWhile Char.isDigit).length :=
      length_le_takeWhile fraction (List.prefix_append fs rest)
    have hpos : 0 < fs.length := List.length_pos_iff.2 nonempty
    rw [List.append_eq, hwhole, List.append_assoc, List.drop_left, List.cons_append]
    show _ ≤ if ((fs ++ rest).takeWhile Char.isDigit).length = 0 then _ else _
    rw [if_neg (by omega), List.length_append, List.length_cons]
    omega

theorem toList_ne_nil_of_mem_operators {op : String} (h : op ∈ operators) : op.toList ≠ [] := by
  have hall : operators.all (fun op => op.toList ≠ []) = true := by decide
  exact of_decide_eq_true (List.all_eq_true.1 hall op h)

theorem exists_operator_eq_cons {op : String} {c : Char} {cs : List Char} (h : op ∈ operators)
    (hfront : op.toList <+: c :: cs) : ∃ x, op.toList = c :: x ∧ x <+: cs := by
  rcases List.prefix_cons_iff.1 hfront with hnil | ⟨x, hx, hcs⟩
  · exact absurd hnil (toList_ne_nil_of_mem_operators h)
  · exact ⟨x, hx, hcs⟩

/-- What the scanner takes for a symbol is written for it. -/
theorem lexeme_of_symbolAt {c : Char} {cs : List Char} {s : Symbol} {n : Nat}
    (h : symbolAt c cs = .ok (s, n)) :
    ∃ x rest, cs = x ++ rest ∧ n = x.length ∧ Lexeme (c :: x) s := by
  -- The cases follow the scanner: strings, characters, numbers, words, marks and operators.
  unfold symbolAt at h
  split at h
  · next hc =>
    subst hc
    split at h
    · next m hquote =>
      obtain ⟨body, rest, rfl, hbody, rfl⟩ := closingQuote_eq_some_iff.1 hquote
      cases h
      refine ⟨body ++ ['"'], rest, by simp, by simp, ?_⟩
      rw [Nat.zero_add, List.take_left]
      exact .string hbody
    · cases h
  split at h
  · next hc =>
    subst hc
    cases hread : characterAt cs with
    | error fault =>
      rw [hread] at h
      cases h
    | ok r =>
      obtain ⟨value, m⟩ := r
      rw [hread] at h
      cases h
      rcases characterAt_eq_ok_iff.1 hread with ⟨e, ds, rfl, hescape, rfl⟩ | ⟨ds, rfl, hvalue, rfl⟩
      · exact ⟨['\\', e, '\''], ds, rfl, rfl, .escape hescape⟩
      · exact ⟨[value, '\''], ds, rfl, rfl, .character hvalue⟩
  split at h
  · next hdigit =>
    cases h
    refine ⟨cs.take (numberTail cs), cs.drop (numberTail cs), (List.take_append_drop _ cs).symm, ?_,
      .number (numeral_numberTail cs hdigit)⟩
    rw [List.length_take, Nat.min_eq_left (numberTail_le cs)]
  split at h
  · next hname =>
    cases h
    refine ⟨cs.takeWhile continuesName, cs.dropWhile continuesName,
      List.takeWhile_append_dropWhile.symm, rfl, ?_⟩
    rw [take_length_takeWhile]
    exact lexeme_word (.mk hname List.all_takeWhile)
  split at h
  · next mark hmark =>
    cases h
    refine ⟨[], cs, rfl, rfl, ?_⟩
    have hfound := List.find?_some hmark
    rw [← of_decide_eq_true hfound]
    exact .punct
  split at h
  · next op hop =>
    cases h
    have hmem := List.mem_of_find?_eq_some hop
    have hfront : op.toList <+: c :: cs := by
      have hfound := List.find?_some hop
      exact List.isPrefixOf_iff_prefix.1 hfound
    obtain ⟨x, hx, rest, rfl⟩ := exists_operator_eq_cons hmem hfront
    refine ⟨x, rest, rfl, ?_, ?_⟩
    · rw [← String.length_toList, hx]
      rfl
    · rw [← hx]
      exact .operator hmem
  · cases h

/-! ## The longest lexeme -/

theorem symbolAt_word {c : Char} (h : startsName c = true) (cs : List Char) :
    symbolAt c cs = .ok (word (String.ofList (c :: cs.takeWhile continuesName)),
      (cs.takeWhile continuesName).length) := by
  have hquote : c ≠ '"' := by
    rintro rfl
    exact absurd h (by decide)
  have hmark : c ≠ '\'' := by
    rintro rfl
    exact absurd h (by decide)
  have hdigit : ¬ c.isDigit = true := fun hd => by
    rw [not_startsName_of_isDigit hd] at h
    cases h
  rw [symbolAt, if_neg hquote, if_neg hmark, if_neg hdigit, if_pos h]
  dsimp only
  rw [take_length_takeWhile]

theorem symbolAt_number {c : Char} (h : c.isDigit = true) (cs : List Char) :
    symbolAt c cs =
      .ok (.number (String.ofList (c :: cs.take (numberTail cs))), numberTail cs) := by
  have hquote : c ≠ '"' := by
    rintro rfl
    exact absurd h (by decide)
  have hmark : c ≠ '\'' := by
    rintro rfl
    exact absurd h (by decide)
  rw [symbolAt, if_neg hquote, if_neg hmark, if_pos h]

theorem symbolAt_punct (mark : Punct) (cs : List Char) :
    symbolAt mark.char cs = .ok (.punct mark, 0) := by
  cases mark <;> rfl

theorem Word.exists_letter {x : List Char} (h : Word x) :
    ∃ c cs, x = c :: cs ∧ startsName c = true := by
  cases h with
  | mk first => exact ⟨_, _, rfl, first⟩

theorem Word.ne_nil {x : List Char} (h : Word x) : x ≠ [] := by
  obtain ⟨c, cs, rfl, -⟩ := h.exists_letter
  exact List.cons_ne_nil c cs

theorem Numeral.exists_digit {x : List Char} (h : Numeral x) :
    ∃ d ds, x = d :: ds ∧ d.isDigit = true := by
  cases h with
  | whole first | decimal first => exact ⟨_, _, rfl, first⟩

theorem word_spelling (k : Keyword) : Word k.spelling.toList := by
  cases k with
  | type t => cases t <;> exact .mk (by decide) (by decide)
  | jump j => cases j <;> exact .mk (by decide) (by decide)
  | returnKw | ifKw | elseKw | whileKw | forKw => exact .mk (by decide) (by decide)

theorem pairwise_operators : operators.Pairwise fun a b => b.length ≤ a.length := by
  decide

/-- Of the operators at the front of a text the longest is found. -/
theorem operatorAt_longest {op : String} {cs : List Char} (h : op ∈ operators)
    (hfront : op.toList <+: cs) :
    ∃ op', operatorAt cs = some op' ∧ op'.toList <+: cs ∧ op.length ≤ op'.length := by
  cases hfound : operatorAt cs with
  | none =>
    have hnone := List.find?_eq_none.1 hfound op h
    exact absurd (List.isPrefixOf_iff_prefix.2 hfront) hnone
  | some op' =>
    obtain ⟨hop', before, after, hsplit, hbefore⟩ := List.find?_eq_some_iff_append.1 hfound
    refine ⟨op', rfl, List.isPrefixOf_iff_prefix.1 hop', ?_⟩
    have hpairs := pairwise_operators
    rw [hsplit] at h hpairs
    rcases List.mem_append.1 h with hearlier | hlater
    · have hnot := hbefore op hearlier
      rw [List.isPrefixOf_iff_prefix.2 hfront] at hnot
      cases hnot
    · rcases List.mem_cons.1 hlater with rfl | hmem
      · exact Nat.le_refl _
      · exact (List.pairwise_cons.1 (List.pairwise_append.1 hpairs).2.1).1 op hmem

/-- No operator begins as another symbol does. -/
theorem symbolAt_operator {op op' : String} {c : Char} {x cs : List Char} (h : op ∈ operators)
    (hx : op.toList = c :: x) (hop' : operatorAt (c :: cs) = some op') :
    symbolAt c cs = .ok (.operator op', op'.length - 1) := by
  have hall : operators.all (fun op => op.toList.head?.any fun c => c ≠ '"' && c ≠ '\'' &&
      !c.isDigit && !startsName c && (Punct.ofChar? c).isNone) = true := by
    decide
  have hop := List.all_eq_true.1 hall op h
  rw [hx] at hop
  simp only [List.head?_cons, Option.any_some, Bool.and_eq_true, decide_eq_true_eq,
    Bool.not_eq_true', Option.isNone_iff_eq_none] at hop
  obtain ⟨⟨⟨⟨hquote, hmark⟩, hdigit⟩, hname⟩, hpunct⟩ := hop
  rw [symbolAt, if_neg hquote, if_neg hmark, hdigit, hname, hpunct, hop']
  rfl

/-- The scanner takes at least the characters `y`, and no other symbol than `s` if it takes no
more. -/
def Reaches (c : Char) (cs y : List Char) (s : Symbol) : Prop :=
  ∃ s' n, symbolAt c cs = .ok (s', n) ∧ y.length ≤ n + 1 ∧ (n + 1 = y.length → s' = s)

theorem reaches_exactly {c : Char} {cs y : List Char} {s : Symbol}
    (h : symbolAt c cs = .ok (s, y.length)) : Reaches c cs (c :: y) s :=
  ⟨s, y.length, h, Nat.le_refl _, fun _ => rfl⟩

theorem reaches_word {c : Char} {cs ds : List Char} (h : Word (c :: ds)) (hds : ds <+: cs) :
    Reaches c cs (c :: ds) (word (String.ofList (c :: ds))) := by
  cases h with
  | mk first others =>
    have hle := length_le_takeWhile others hds
    refine ⟨_, _, symbolAt_word first cs, Nat.succ_le_succ hle, ?_⟩
    intro hlength
    have heq : (cs.takeWhile continuesName).length = ds.length := Nat.succ.inj hlength
    rw [← take_length_takeWhile continuesName cs, heq, ← List.prefix_iff_eq_take.1 hds]

theorem reaches_number {c : Char} {cs ds : List Char} (h : Numeral (c :: ds))
    (hc : c.isDigit = true) (hds : ds <+: cs) :
    Reaches c cs (c :: ds) (.number (String.ofList (c :: ds))) := by
  have hle := length_le_numberTail h hds
  refine ⟨_, _, symbolAt_number hc cs, Nat.succ_le_succ hle, ?_⟩
  intro hlength
  have heq : numberTail cs = ds.length := Nat.succ.inj hlength
  rw [heq, ← List.prefix_iff_eq_take.1 hds]

theorem reaches_operator {op : String} {c : Char} {cs : List Char} (h : op ∈ operators)
    (hfront : op.toList <+: c :: cs) : Reaches c cs op.toList (.operator op) := by
  obtain ⟨x, hx, -⟩ := exists_operator_eq_cons h hfront
  obtain ⟨op', hop', hfront', hle⟩ := operatorAt_longest h hfront
  have hpos : 0 < op.length := by
    rw [← String.length_toList, hx]
    exact Nat.succ_pos _
  refine ⟨_, _, symbolAt_operator h hx hop', ?_, ?_⟩
  · rw [String.length_toList]
    omega
  · intro hlength
    rw [String.length_toList] at hlength
    have heq : op'.toList.length = op.toList.length := by
      rw [String.length_toList, String.length_toList]
      omega
    have hsame : op'.toList = op.toList := by
      rw [List.prefix_iff_eq_take.1 hfront', heq, ← List.prefix_iff_eq_take.1 hfront]
    rw [String.toList_inj.1 hsame]

theorem reaches_string {body cs : List Char} (h : Quoted body) (hfront : body ++ ['"'] <+: cs) :
    Reaches '"' cs ('"' :: (body ++ ['"'])) (.string (String.ofList body)) := by
  obtain ⟨rest, rfl⟩ := hfront
  have hquote : closingQuote 0 (body ++ ['"'] ++ rest) = some body.length := by
    refine closingQuote_eq_some_iff.2 ⟨body, rest, ?_, h, (Nat.zero_add _).symm⟩
    rw [List.append_assoc, List.singleton_append]
  refine reaches_exactly ?_
  rw [symbolAt, if_pos rfl, hquote]
  dsimp only
  rw [List.append_assoc, List.take_left, List.length_append]
  rfl

theorem reaches_character {y cs : List Char} {value : Char}
    (h : characterAt cs = .ok (value, y.length)) :
    Reaches '\'' cs ('\'' :: y) (.character value) := by
  refine reaches_exactly ?_
  rw [symbolAt, if_neg (by decide), if_pos rfl, h]
  rfl

/-- Where a lexeme stands at the front of a text, the scanner takes at least as much, and no other
symbol if it takes just as much. -/
theorem reaches_of_lexeme {y cs : List Char} {c : Char} {s : Symbol} (h : Lexeme y s)
    (hfront : y <+: c :: cs) : Reaches c cs y s := by
  have hword {y : List Char} (hy : Word y) (hfront : y <+: c :: cs) :
      Reaches c cs y (word (String.ofList y)) := by
    obtain ⟨d, ds, rfl, -⟩ := hy.exists_letter
    obtain ⟨rfl, hds⟩ := List.cons_prefix_cons.1 hfront
    exact reaches_word hy hds
  cases h with
  | number hy =>
    obtain ⟨d, ds, rfl, hd⟩ := hy.exists_digit
    obtain ⟨rfl, hds⟩ := List.cons_prefix_cons.1 hfront
    exact reaches_number hy hd hds
  | @keyword k =>
    have hk : word (String.ofList k.spelling.toList) = .keyword k := by
      rw [word, String.ofList_toList, ofSpelling?_eq_some_iff.2 rfl]
    rw [← hk]
    exact hword (word_spelling k) hfront
  | name hy hfree =>
    rw [← word_eq_name hfree]
    exact hword hy hfront
  | operator hop => exact reaches_operator hop hfront
  | @punct mark =>
    obtain ⟨rfl, -⟩ := List.cons_prefix_cons.1 hfront
    exact reaches_exactly (symbolAt_punct mark cs)
  | string hbody =>
    obtain ⟨rfl, hbody'⟩ := List.cons_prefix_cons.1 hfront
    exact reaches_string hbody hbody'
  | @character d hd =>
    obtain ⟨rfl, rest, rfl⟩ := List.cons_prefix_cons.1 hfront
    exact reaches_character (characterAt_eq_ok_iff.2 (.inr ⟨rest, rfl, hd, rfl⟩))
  | @escape e value hvalue =>
    obtain ⟨rfl, rest, rfl⟩ := List.cons_prefix_cons.1 hfront
    exact reaches_character (characterAt_eq_ok_iff.2 (.inl ⟨e, rest, rfl, hvalue, rfl⟩))

/-- No lexeme is longer than what the scanner takes. -/
theorem length_le_of_symbolAt {c : Char} {x rest : List Char} {s : Symbol}
    (h : symbolAt c (x ++ rest) = .ok (s, x.length)) (y : List Char) (s' : Symbol)
    (hy : Lexeme y s') (hfront : y <+: (c :: x) ++ rest) : y.length ≤ (c :: x).length := by
  rw [List.cons_append] at hfront
  obtain ⟨s'', n, hsymbol, hle, -⟩ := reaches_of_lexeme hy hfront
  rw [h] at hsymbol
  cases hsymbol
  exact hle

/-! ## Lexemes and spellings -/

theorem Lexeme.ne_nil {x : List Char} {s : Symbol} (h : Lexeme x s) : x ≠ [] := by
  cases h with
  | number h =>
    obtain ⟨d, ds, rfl, -⟩ := h.exists_digit
    exact List.cons_ne_nil d ds
  | keyword => exact (word_spelling _).ne_nil
  | name h => exact h.ne_nil
  | operator h => exact toList_ne_nil_of_mem_operators h
  | punct | string | character | escape => exact List.cons_ne_nil _ _

theorem toList_spelling_string (body : List Char) :
    (Symbol.string (String.ofList body)).spelling.toList = '"' :: (body ++ ['"']) := by
  have hbody : (toString (String.ofList body)).toList = body := String.toList_ofList
  have hquote : (toString "\"").toList = ['"'] := by decide
  rw [Symbol.spelling, String.toList_append, String.toList_append, hbody, hquote]
  rfl

theorem toList_spelling_punct (mark : Punct) :
    (Symbol.punct mark).spelling.toList = [mark.char] :=
  String.toList_singleton mark.char

/-- A symbol is spelled as it is written, unless it is a character that is written as an escape. -/
theorem Lexeme.spelling_eq_iff {x : List Char} {s : Symbol} (h : Lexeme x s) :
    s.spelling.toList = x ↔ ¬ ['\'', '\\'] <+: x := by
  -- only a character literal begins with the mark `'`
  have hne {c : Char} {cs : List Char} (hc : c ≠ '\'') : ¬ ['\'', '\\'] <+: c :: cs :=
    fun h => hc (List.cons_prefix_cons.1 h).1.symm
  have hword {x : List Char} (h : Word x) : ¬ ['\'', '\\'] <+: x := by
    cases h with
    | @mk c cs first others =>
      refine hne ?_
      rintro rfl
      exact absurd first (by decide)
  cases h with
  | number h =>
    obtain ⟨d, ds, rfl, hd⟩ := h.exists_digit
    refine iff_of_true String.toList_ofList (hne ?_)
    rintro rfl
    exact absurd hd (by decide)
  | keyword => exact iff_of_true rfl (hword (word_spelling _))
  | name h => exact iff_of_true String.toList_ofList (hword h)
  | @operator op h =>
    have hall : operators.all (fun op => !(['\'', '\\'].isPrefixOf op.toList)) = true := by decide
    have hop := List.all_eq_true.1 hall op h
    refine iff_of_true rfl fun hfront => ?_
    rw [List.isPrefixOf_iff_prefix.2 hfront] at hop
    cases hop
  | @punct mark => exact iff_of_true (toList_spelling_punct mark) (hne (by cases mark <;> decide))
  | @string body _ => exact iff_of_true (toList_spelling_string body) (hne (by decide))
  | @character c hc =>
    refine iff_of_true (toList_spelling_character c) fun hfront => ?_
    exact hc (List.cons_prefix_cons.1 (List.cons_prefix_cons.1 hfront).2).1.symm
  | @escape e value _ =>
    rw [toList_spelling_character]
    exact iff_of_false (by simp) (not_not_intro ⟨[e, '\''], rfl⟩)

/-! ## Whole texts -/

/-- The tokens of a text that stands behind `before`. The text is cut into trivia and lexemes. All
trivia before a lexeme are passed over, and the lexeme is the longest at its place. A token stands
where its lexeme begins, and the last one where the text ends. -/
inductive Covers : (before text : List Char) → List Token → Prop
  | done {before w : List Char} (trivia : Gap w []) :
      Covers before w [⟨.eof, place (before ++ w)⟩]
  | token {before w x rest : List Char} {s : Symbol} {ts : List Token}
      (trivia : Gap w (x ++ rest)) (ends : opensGap (x ++ rest) = false) (lexeme : Lexeme x s)
      (longest : ∀ y s', Lexeme y s' → y <+: x ++ rest → y.length ≤ x.length)
      (others : Covers (before ++ w ++ x) rest ts) :
      Covers before (w ++ (x ++ rest)) (⟨s, place (before ++ w)⟩ :: ts)

theorem covers_of_tokens {p : Position} {before cs : List Char} {ts : List Token}
    (hp : p = place before) (h : tokens p cs = .ok ts) : Covers before cs ts := by
  fun_induction tokens p cs generalizing before ts with
  | case1 => cases h
  | case2 p cs n htrivia here =>
    rename_i hdrop
    obtain ⟨w, rest, rfl, rfl, hgap, -⟩ := triviaLength_eq_ok_iff.1 htrivia
    rw [List.drop_left] at hdrop
    subst hdrop
    cases h
    have hhere : here = place (before ++ w) := by
      show p.advance _ = _
      rw [List.take_left, hp, place_append]
    rw [hhere, List.append_nil]
    exact .done hgap
  | case3 => cases h
  | case4 => cases h
  | case5 p cs n htrivia here c rest hdrop s k hsymbol us hus =>
    rename_i ih
    obtain ⟨w, text, rfl, rfl, hgap, hends⟩ := triviaLength_eq_ok_iff.1 htrivia
    rw [List.drop_left] at hdrop
    subst hdrop
    obtain ⟨x, rest, rfl, rfl, hlexeme⟩ := lexeme_of_symbolAt hsymbol
    have hhere : here = place (before ++ w) := by
      show p.advance _ = _
      rw [List.take_left, hp, place_append]
    cases h
    rw [List.take_left, List.drop_left, hhere, ← place_append] at ih
    rw [List.take_left, List.drop_left, hhere, ← place_append] at hus
    rw [hhere]
    exact .token hgap hends hlexeme (length_le_of_symbolAt hsymbol) (ih rfl hus)

theorem tokens_of_covers {before cs : List Char} {ts : List Token} (h : Covers before cs ts) :
    tokens (place before) cs = .ok ts := by
  induction h with
  | done hgap =>
    rw [place_append]
    refine tokens_of_trivia (triviaLength_eq_ok_iff.2 ?_)
    exact ⟨_, [], (List.append_nil _).symm, rfl, hgap, rfl⟩
  | @token before w x rest s ts hgap hends hlexeme hlongest others ih =>
    obtain ⟨c, x, rfl⟩ := List.exists_cons_of_ne_nil hlexeme.ne_nil
    -- what the scanner takes is a lexeme too, so it is neither shorter nor longer
    have hfront : c :: x <+: c :: (x ++ rest) := List.prefix_append (c :: x) rest
    obtain ⟨s', n, hsymbol, hle, hsame⟩ := reaches_of_lexeme hlexeme hfront
    obtain ⟨x', rest', hsplit, rfl, hlexeme'⟩ := lexeme_of_symbolAt hsymbol
    have hge := hlongest _ _ hlexeme' ⟨rest', by rw [List.cons_append, List.cons_append, hsplit]⟩
    rw [List.length_cons, List.length_cons] at hge
    rw [List.length_cons] at hle
    have hlength : x'.length = x.length := by omega
    rw [hsame (by rw [hlength, List.length_cons]), hlength] at hsymbol
    have htrivia : triviaLength (w ++ c :: (x ++ rest)) = .ok w.length :=
      triviaLength_eq_ok_iff.2 ⟨w, _, rfl, rfl, hgap, hends⟩
    rw [place_append]
    refine tokens_of_lexeme htrivia hsymbol ?_
    rw [← place_append, ← place_append]
    exact ih

end Scan

/-- **A text is covered by its tokens.** A text has tokens exactly if it can be cut into trivia and
lexemes of which each is the longest at its place. The tokens are then the symbols that the lexemes
are written for, with the line and the column where each lexeme begins, and the end of the text. No
lexeme is empty, and each is the spelling of its symbol, unless it is a character literal that is
written as an escape. -/
theorem scan_covers (source : String) :
    (∀ ts, scan source = .ok ts ↔ Scan.Covers [] source.toList ts) ∧
    ∀ x s, Scan.Lexeme x s →
      x ≠ [] ∧ (s.spelling.toList = x ↔ ¬ ['\'', '\\'] <+: x) := by
  constructor
  · intro ts
    exact ⟨Scan.covers_of_tokens rfl, Scan.tokens_of_covers⟩
  · intro x s h
    exact ⟨h.ne_nil, h.spelling_eq_iff⟩

end ClockedC
