import ClockedC.Proofs.Concatenation
import ClockedC.Proofs.SourceTerms

/-!
# Declarations and indices that are checked

A source is refused where a function declares a name in two ways, or accesses an array at an integer
outside of it. This file says what therefore holds of all functions that are read, in terms of what
was written: a name has one shape, no parameter is an array, and an integer that is written as an
index behind the declaration of an array lies in the array. Each function is checked for itself.

* `DecimalText` says which texts are integers.
* `ExprAt.eq_number_of_digits`: what is written in digits alone is a number.
* `Access.Scanned.written?_eq`: an index whose text is an integer is taken for one.
* `Function.Consistent` gathers what holds of a function that is read.
* `Parse.functions_suffix`: each function is read from what is left behind those before it.
* `Program.consistent_of_ofSource`: the functions of a source are consistent.
-/

namespace ClockedC

/-! ## Integers -/

/-- A text is an integer in decimal digits, with at most a minus sign before them. -/
inductive DecimalText : String → Int → Prop
  | plain {ds : List Char} {n : Nat} (h : natural? ds = some n) :
      DecimalText (String.ofList ds) n
  | negated {ds : List Char} {n : Nat} (h : natural? ds = some n) :
      DecimalText (String.ofList ('-' :: ds)) (-n)

theorem natural?_eq_some {ds : List Char} {n : Nat} (h : natural? ds = some n) :
    ds.all Char.isDigit = true ∧ ∃ d ds', ds = d :: ds' ∧ d.isDigit = true := by
  unfold natural? at h
  split at h
  · cases h
  · next hds =>
    rw [Bool.or_eq_true, not_or, Bool.not_eq_true, Bool.not_eq_true, Bool.not_eq_false'] at hds
    obtain ⟨hnonempty, hdigits⟩ := hds
    cases ds with
    | nil => cases hnonempty
    | cons d ds' => exact ⟨hdigits, d, ds', rfl, (Bool.and_eq_true_iff.1 hdigits).1⟩

theorem splitSign_of_isDigit {d : Char} (hd : d.isDigit = true) (ds : List Char) :
    splitSign (d :: ds) = (false, d :: ds) := by
  unfold splitSign
  split
  · next heq =>
    cases heq
    exact absurd hd (by decide)
  · next heq =>
    cases heq
    exact absurd hd (by decide)
  · rfl

theorem signed64?_of_natural? {ds : List Char} {n : Nat} (h : natural? ds = some n)
    (hn : n < 0x8000000000000000) : signed64? (String.ofList ds) = some (n : Int) := by
  obtain ⟨-, d, ds', rfl, hd⟩ := natural?_eq_some h
  have hrange : leastSigned ≤ (n : Int) ∧ (n : Int) ≤ greatestSigned := by
    unfold leastSigned greatestSigned
    omega
  rw [signed64?, String.toList_ofList, splitSign_of_isDigit hd]
  dsimp only
  rw [h]
  exact if_pos hrange

theorem negate64_of_lt {n : Nat} (hn : n < 0x8000000000000000) : negate64 n = -(n : Int) := by
  unfold negate64 wrap64 wordCount
  rw [Int.bmod_eq_of_le] <;> omega

/-! ## Indices written in digits -/

/-- A symbol whose text holds a character that is no digit. -/
def Symbol.HasNonDigit (s : Symbol) : Prop :=
  ∃ c ∈ s.spelling.toList, c.isDigit = false

theorem hasNonDigit_punct (mark : Punct) : (Symbol.punct mark).HasNonDigit := by
  refine ⟨mark.char, ?_, by cases mark <;> decide⟩
  rw [Scan.toList_spelling_punct]
  exact List.mem_singleton_self _

theorem hasNonDigit_binary (op : BinaryOp) : (Symbol.operator op.spelling).HasNonDigit := by
  cases op <;> exact ⟨_, List.mem_cons_self, by decide⟩

theorem hasNonDigit_unary (op : UnaryOp) : (Symbol.operator op.spelling).HasNonDigit := by
  cases op <;> exact ⟨_, List.mem_cons_self, by decide⟩

theorem hasNonDigit_character (c : Char) : (Symbol.character c).HasNonDigit := by
  refine ⟨'\'', ?_, by decide⟩
  rw [toList_spelling_character]
  exact List.mem_cons_self

theorem isDigit_eq_false_of_startsName {c : Char} (h : Scan.startsName c = true) :
    c.isDigit = false := by
  refine Bool.eq_false_iff.2 fun hdigit => ?_
  rw [Scan.not_startsName_of_isDigit hdigit] at h
  cases h

theorem hasNonDigit_name {n : String} (h : (Symbol.name n).Spelled) :
    (Symbol.name n).HasNonDigit := by
  obtain ⟨c, cs, hn, first⟩ := Scan.Word.exists_letter h
  refine ⟨c, ?_, isDigit_eq_false_of_startsName first⟩
  rw [Symbol.spelling, hn]
  exact List.mem_cons_self

theorem not_all_isDigit {us vs : List Token} {t : Token} (h : t.symbol.HasNonDigit) :
    ¬ (spelled (us ++ t :: vs)).toList.all Char.isDigit = true := by
  intro hall
  obtain ⟨c, hc, hdigit⟩ := h
  have hmem : c ∈ (spelled (us ++ t :: vs)).toList := by
    rw [spelled_append, spelled_cons, String.toList_append, String.toList_append]
    exact List.mem_append_right _ (List.mem_append_left _ hc)
  rw [List.all_eq_true.1 hall c hmem] at hdigit
  cases hdigit

/-- What is written in digits alone is a number. -/
theorem ExprAt.eq_number_of_digits : ∀ {k : Nat} {ts : List Token} {e : Expr}, ExprAt k ts e →
    (∀ t ∈ ts, t.symbol.Spelled) → (ClockedC.spelled ts).toList.all Char.isDigit = true →
      ∃ n p, ts = [⟨.number n, p⟩]
  | _, _, _, .tighter _ h, hts, hdigits => h.eq_number_of_digits hts hdigits
  | _, _, _, .number, _, _ => ⟨_, _, rfl⟩
  | _, _, _, @ExprAt.binary _ _ _ _ _ op _ _ _ _, _, hdigits =>
    absurd hdigits (not_all_isDigit (hasNonDigit_binary op))
  | _, _, _, @ExprAt.unary _ _ op _ _, _, hdigits =>
    absurd hdigits (@not_all_isDigit [] _ _ (hasNonDigit_unary op))
  | _, _, _, .parens _, _, hdigits =>
    absurd hdigits (@not_all_isDigit [] _ _ (hasNonDigit_punct .openParen))
  | _, _, _, @ExprAt.character c _, _, hdigits =>
    absurd hdigits (@not_all_isDigit [] _ _ (hasNonDigit_character c))
  | _, _, _, .name, hts, hdigits | _, _, _, .call _, hts, hdigits
  | _, _, _, .constant, hts, hdigits | _, _, _, .element _, hts, hdigits =>
    absurd hdigits (@not_all_isDigit [] _ _ (hasNonDigit_name (hts _ List.mem_cons_self)))

/-- Of the symbols that an operand begins with, only the minus sign is written with one in front. -/
theorem Symbol.first_of_opensOperand {s : Symbol} (h : s.opensOperand = true) (hs : s.Spelled) :
    ∃ c cs, s.spelling.toList = c :: cs ∧ (c = '-' → s = .operator "-") := by
  have hother {s : Symbol} {c : Char} {cs : List Char} (hcs : s.spelling.toList = c :: cs)
      (hc : c ≠ '-') : ∃ c cs, s.spelling.toList = c :: cs ∧ (c = '-' → s = .operator "-") :=
    ⟨c, cs, hcs, fun heq => absurd heq hc⟩
  cases s with
  | number text =>
    obtain ⟨c, cs, hcs, hc⟩ := Scan.Numeral.exists_cons hs
    exact hother hcs hc
  | character c => exact hother (toList_spelling_character c) (by decide)
  | name n =>
    obtain ⟨c, cs, hn, first⟩ := Scan.Word.exists_letter hs
    refine hother hn ?_
    rintro rfl
    exact absurd first (by decide)
  | operator spelling =>
    obtain ⟨op, hop⟩ := Option.isSome_iff_exists.1 h
    rw [UnaryOp.ofSpelling?_eq_some.1 hop]
    cases op with
    | neg => exact ⟨'-', [], rfl, fun _ => rfl⟩
    | not => exact hother (c := '!') rfl (by decide)
    | bitNot => exact hother (c := '~') rfl (by decide)
  | punct mark =>
    rw [Scan.toList_spelling_punct]
    refine ⟨mark.char, [], rfl, fun heq => ?_⟩
    cases mark <;> exact absurd heq (by decide)
  | string | keyword | eof => cases h

theorem toList_spelling_minus : (Symbol.operator "-").spelling.toList = ['-'] := by
  decide

theorem ExprAt.eq_number_of_minus : ∀ {k : Nat} {ts : List Token} {e : Expr}, ExprAt k ts e →
    (∀ t ∈ ts, t.symbol.Spelled) → ∀ p us, ts = ⟨.operator "-", p⟩ :: us →
      (ClockedC.spelled us).toList.all Char.isDigit = true → ∃ n q, us = [⟨.number n, q⟩]
  | _, _, _, .tighter _ h, hts, p, us, heq, hdigits => h.eq_number_of_minus hts p us heq hdigits
  | _, _, _, @ExprAt.binary _ _ r _ _ op q _ left _, hts, p, us, heq, hdigits => by
    obtain ⟨t, tail, rfl, -⟩ := left.opens
    obtain ⟨-, rfl⟩ := List.cons.inj heq
    exact absurd hdigits (not_all_isDigit (hasNonDigit_binary op))
  | _, _, _, .unary operand, hts, p, us, heq, hdigits => by
    obtain ⟨-, rfl⟩ := List.cons.inj heq
    exact operand.eq_number_of_digits (List.forall_mem_cons.1 hts).2 hdigits

/-- What is written as a minus sign and digits is a negated number. -/
theorem ExprAt.eq_negated_of_digits {k : Nat} {ts : List Token} {e : Expr} (h : ExprAt k ts e)
    (hts : ∀ t ∈ ts, t.symbol.Spelled) {ds : List Char}
    (hds : (ClockedC.spelled ts).toList = '-' :: ds) (hdigits : ds.all Char.isDigit = true) :
    ∃ n p q, ts = [⟨.operator "-", p⟩, ⟨.number n, q⟩] := by
  obtain ⟨⟨s, p⟩, us, rfl, hopens⟩ := h.opens
  obtain ⟨c, cs, hcs, hminus⟩ := Symbol.first_of_opensOperand hopens (hts _ List.mem_cons_self)
  rw [spelled_cons, String.toList_append, hcs, List.cons_append] at hds
  obtain ⟨hc, rfl⟩ := List.cons.inj hds
  cases hminus hc
  obtain rfl : [] = cs := (List.cons.inj (toList_spelling_minus.symm.trans hcs)).2
  obtain ⟨n, q, rfl⟩ := h.eq_number_of_minus hts p us rfl hdigits
  exact ⟨n, p, q, rfl⟩

/-! ## Accesses -/

/-- An index whose text is an integer is taken for that integer. -/
theorem Access.Scanned.written?_eq {a : Access} {v : Int} (h : a.Scanned)
    (hv : DecimalText a.text v) (hrange : v.natAbs < 0x8000000000000000) :
    a.written? = some v := by
  obtain ⟨ts, hat, htext, hlexed⟩ := h
  have hts : ∀ t ∈ ts, t.symbol.Spelled := fun t ht => (hlexed t ht).spelled
  rw [Access.written?, htext, hat.writtenLiteral?_spelled]
  rw [htext] at hv
  generalize htexts : spelled ts = text at hv
  cases hv with
  | @plain ds m hm =>
    have hlist : (spelled ts).toList = ds := by rw [htexts, String.toList_ofList]
    obtain ⟨n, p, rfl⟩ := hat.eq_number_of_digits hts (by rw [hlist]; exact (natural?_eq_some hm).1)
    rw [spelled_number] at htexts
    show signed64? n = _
    rw [htexts, signed64?_of_natural? hm (by omega)]
  | @negated ds m hm =>
    have hlist : (spelled ts).toList = '-' :: ds := by rw [htexts, String.toList_ofList]
    obtain ⟨n, p, q, rfl⟩ := hat.eq_negated_of_digits hts hlist (natural?_eq_some hm).1
    have hn : n = String.ofList ds := by
      rw [spelled_cons, spelled_number, String.toList_append, toList_spelling_minus,
        List.singleton_append] at hlist
      rw [← (List.cons.inj hlist).2, String.ofList_toList]
    show (signed64? n).map negate64 = _
    rw [hn, signed64?_of_natural? hm (by omega), Option.map_some, negate64_of_lt (by omega)]

/-! ## Consistent functions -/

namespace Function

/-- What a function declares fits together, and where it accesses an array at an integer, behind a
declaration of the array, the integer lies in the array. -/
structure Consistent (f : Function) : Prop where
  /-- All declarations of a name are of a scalar, or all are of an array of one size. -/
  shapes : ∀ d ∈ f.declarations, ∀ d' ∈ f.declarations, d.name = d'.name →
    d.form.shape = d'.form.shape
  params : ∀ d ∈ f.declarations, d.isArray = true → f.hasParam d.name = false
  indices : ∀ (s : f.Site) (d : Declaration) (size : Nat), .declared d ∈ s.before →
    d.name = s.access.base → d.form.shape = .array size →
    ∀ v, DecimalText s.access.text v → v.natAbs < 0x8000000000000000 → 0 ≤ v ∧ v < size

variable {f : Function}

theorem Checked.shape_eq (h : f.Checked) {d d' : Declaration} (hd : d ∈ f.declarations)
    (hd' : d' ∈ f.declarations) (hname : d.name = d'.name) : d.form.shape = d'.form.shape := by
  have hmention := List.mem_append_right (f.params.map fun p => Mention.declared p.name .scalar)
    (mention_of_mem_declarations hd)
  have hmention' := List.mem_append_right (f.params.map fun p => Mention.declared p.name .scalar)
    (mention_of_mem_declarations hd')
  rw [← hname] at hmention'
  exact Mention.shape_unique h.agree hmention hmention'

theorem Checked.hasParam_eq_false (h : f.Checked) {d : Declaration} (hd : d ∈ f.declarations)
    (harray : d.isArray = true) : f.hasParam d.name = false := by
  refine Bool.eq_false_iff.2 fun hparam => ?_
  obtain ⟨p, hp, hname⟩ := List.any_eq_true.1 hparam
  have hscalar : Mention.declared d.name .scalar ∈ f.mentions := by
    rw [← of_decide_eq_true hname]
    exact List.mem_append_left _ (List.mem_map_of_mem hp)
  have hmention : Mention.declared d.name d.form.shape ∈ f.mentions :=
    List.mem_append_right _ (mention_of_mem_declarations hd)
  have hshape := Mention.shape_unique h.agree hscalar hmention
  unfold Declaration.isArray at harray
  split at harray
  · cases harray
  · next hform =>
    rw [hform] at hshape
    cases hshape

theorem Checked.index_mem_range (h : f.Checked) (s : f.Site) {d : Declaration} {size : Nat}
    (hd : .declared d ∈ s.before) (hname : d.name = s.access.base)
    (hshape : d.form.shape = .array size) {v : Int} (hv : s.access.written? = some v) :
    0 ≤ v ∧ v < size := by
  have hbefore : Mention.declared s.access.base (.array size) ∈
      s.before.filterMap Remark.mention? := by
    refine List.mem_filterMap.2 ⟨_, hd, ?_⟩
    rw [Remark.mention?, hshape, hname]
  have hagree : (Block.mentions f.body).Pairwise Mention.Agrees :=
    (List.pairwise_append.1 h.agree).2.1
  rw [s.mentions_split hv] at hagree
  exact (List.pairwise_append.1 hagree).2.2 _ hbefore _ List.mem_cons_self rfl

end Function

/-! ## The functions from one on -/

namespace Parse

open Cursor

variable {ts : List Token} {f : Function} {fs : List Function}

/-- The functions after the first are read from tokens that are left after it. -/
theorem functions_tail (h : (functions ts).outcome = .ok (f :: fs)) :
    ∃ us, Left us ts ∧ (functions us).outcome = .ok fs := by
  fun_induction functions ts with
  | case1 => cases h
  | case2 ts _ _ left _ _ _ _ _ _ left' _ _ inner left'' _ ih =>
    simp only [Logged.outcome_bind_eq_ok, Read.exists] at h
    obtain ⟨g, rest, hleft, hg, u, -, others, hothers, heq⟩ := h
    cases heq
    exact ⟨rest, ((left.andThen left').andThen left'').left.andPass hleft.left, hothers⟩
  | case3 ts _ rest left _ _ _ _ _ _ _ _ _ ih =>
    obtain ⟨u, -, hrest⟩ := Logged.outcome_bind_eq_ok.1 h
    obtain ⟨us, hus, hfs⟩ := ih hrest
    exact ⟨us, (left.left.andPass (left_afterSemicolon rest)).andPass hus, hfs⟩
  | case4 _ _ _ left _ _ _ _ ih | case5 _ _ _ left _ _ ih =>
    obtain ⟨u, -, hrest⟩ := Logged.outcome_bind_eq_ok.1 h
    obtain ⟨us, hus, hfs⟩ := ih hrest
    exact ⟨us, left.left.andPass hus, hfs⟩

/-- The functions from any one on are read from what is left of the tokens there. -/
theorem functions_suffix {earlier later : List Function}
    (h : (functions ts).outcome = .ok (earlier ++ later)) :
    ∃ us, Left us ts ∧ (functions us).outcome = .ok later := by
  induction earlier generalizing ts with
  | nil => exact ⟨ts, Left.refl ts, h⟩
  | cons f earlier ih =>
    obtain ⟨us, hus, hrest⟩ := functions_tail h
    obtain ⟨vs, hvs, hlater⟩ := ih hrest
    exact ⟨vs, hus.andPass hvs, hlater⟩

end Parse

theorem Scan.Covers.exists_eof {before text : List Char} {ts : List Token}
    (h : Covers before text ts) : ∃ us p, ts = us ++ [⟨.eof, p⟩] := by
  induction h with
  | done => exact ⟨[], _, rfl⟩
  | token _ _ _ _ _ ih =>
    obtain ⟨us, p, rfl⟩ := ih
    exact ⟨_ :: us, p, rfl⟩

namespace Program

theorem exists_tokens_of_suffix {source : String} {program : Program}
    (h : (ofSource source).outcome = .ok program) {earlier later : List Function}
    (hsplit : program.functions = earlier ++ later) :
    ∃ ts us, scan source = .ok (ts ++ us) ∧ (ofTokens us).outcome = .ok ⟨later⟩ := by
  rw [ofSource] at h
  cases hscan : scan source with
  | error e =>
    rw [hscan] at h
    cases h
  | ok ts =>
    rw [hscan] at h
    obtain ⟨fs, hfs, heq⟩ := Logged.outcome_bind_eq_ok.1 h
    cases heq
    have hcovers : Scan.Covers [] source.toList ts := Scan.covers_of_tokens rfl hscan
    obtain ⟨us, p, rfl⟩ := hcovers.exists_eof
    obtain rfl : fs = earlier ++ later := hsplit
    rw [Parse.withEnd_append_eof] at hfs
    obtain ⟨rest, ⟨taken, htaken, hfree⟩, hlater⟩ := Parse.functions_suffix hfs
    obtain ⟨vs, rfl, rfl⟩ := Parse.exists_append_eof htaken hfree
    refine ⟨taken, vs ++ [⟨.eof, p⟩], by rw [List.append_assoc], ?_⟩
    rw [ofTokens_eq, Parse.withEnd_append_eof, hlater]
    rfl

theorem outcome_ofTokens_append {ts : List Token} {fs : List Function} (h : ProgramForm ts fs)
    (hchecked : ∀ f ∈ fs, f.Checked) (us : List Token) :
    (ofTokens (ts ++ us)).outcome = (ofTokens us).outcome.map fun q => ⟨fs ++ q.functions⟩ :=
  congrArg Logged.outcome (ofTokens_of_programForm h hchecked us)

/-- **Functions that are read are consistent.** Let a source be read, with or without complaints.
In each of its functions a name has one shape, no array has the name of a parameter, and an index
that is written as an integer, behind a declaration of its array, lies in the array. The functions
before it do not matter: from each function on, the tokens can be read alone and give the same
functions, and tokens behind functions that are read are read or refused as without these. -/
theorem consistent_of_ofSource {source : String} {program : Program}
    (h : (ofSource source).outcome = .ok program) :
    (∀ f ∈ program.functions, f.Consistent) ∧
    (∀ earlier later, program.functions = earlier ++ later →
      ∃ ts us, scan source = .ok (ts ++ us) ∧ (ofTokens us).outcome = .ok ⟨later⟩) ∧
    ∀ ts fs, ProgramForm ts fs → (∀ f ∈ fs, f.Checked) → ∀ us,
      (ofTokens (ts ++ us)).outcome =
        (ofTokens us).outcome.map fun later => ⟨fs ++ later.functions⟩ := by
  refine ⟨?_, fun _ _ hsplit => exists_tokens_of_suffix h hsplit,
    fun _ _ hform hchecked us => outcome_ofTokens_append hform hchecked us⟩
  intro f hf
  have hchecked := checked_of_ofSource h f hf
  refine ⟨fun d hd d' hd' hname => hchecked.shape_eq hd hd' hname,
    fun d hd harray => hchecked.hasParam_eq_false hd harray, ?_⟩
  intro s d size hd hname hshape v hv hrange
  have haccess : .accessed s.access ∈ Block.remarks f.body := by
    rw [s.split]
    exact List.mem_append_right _ List.mem_cons_self
  have hscanned := (scanned_of_ofSource h hf).accesses _ haccess
  exact hchecked.index_mem_range s hd hname hshape (hscanned.written?_eq hv hrange)

/-- Two functions may have arrays of one name and of different sizes. -/
theorem consistent_of_ofSource_two_arrays :
    let array : Declaration := ⟨"a", .int, .array 3 none, ⟨1, 30⟩⟩
    let access : Access := ⟨"a", .number "2", "2"⟩
    let g : Function := ⟨"g", .int, [], [.declare ⟨"a", .int, .array 9 none, ⟨1, 10⟩⟩], ⟨1, 5⟩⟩
    let f : Function := ⟨"f", .int, [],
      [.declare array, .assign ⟨.element "a" (.number "2") "2", .number "1", ⟨1, 40⟩⟩], ⟨1, 25⟩⟩
    let s : f.Site := ⟨[.declared array], access, [], rfl⟩
    (ofSource "int g() {int a[9];} int f() {int a[3]; a[2]=1;}").outcome = .ok ⟨[g, f]⟩ ∧
      g.Consistent ∧ f.Consistent ∧
      (.declared array ∈ s.before ∧ DecimalText access.text 2 ∧ 0 ≤ (2 : Int) ∧ (2 : Int) < 3) ∧
      ∃ ts us, scan "int g() {int a[9];} int f() {int a[3]; a[2]=1;}" = .ok (ts ++ us) ∧
        (ofTokens us).outcome = .ok ⟨[f]⟩ := by
  intro array access g f s
  have hread : (ofSource "int g() {int a[9];} int f() {int a[3]; a[2]=1;}").outcome =
      .ok ⟨[g, f]⟩ := by
    with_unfolding_all rfl
  obtain ⟨hall, hsuffix, -⟩ := consistent_of_ofSource hread
  obtain ⟨hg, hf⟩ := List.forall_mem_cons.1 hall
  have hf := List.forall_mem_singleton.1 hf
  have hbefore : .declared array ∈ s.before := List.mem_singleton_self _
  have htext : DecimalText access.text 2 := @DecimalText.plain ['2'] 2 (by decide)
  exact ⟨hread, hg, hf,
    ⟨hbefore, htext, hf.indices s array 3 hbefore rfl rfl 2 htext (by omega)⟩,
    hsuffix [g] [f] rfl⟩

end Program

end ClockedC
