import ClockedC.Proofs.ExprParser

/-!
# How names and numbers are spelled

The names of a source are words and its numbers are numerals. They stay so in all that is read from
it.

* `Scan.Word` and `Scan.Numeral` say what words and numerals are.
* `spelled_of_tokens`: the tokens of every text are spelled so.
* `ExprAt.spelled`: so are the names and numbers of an expression.
-/

namespace ClockedC

/-! ## Words and numerals -/

namespace Scan

/-- A letter or underscore, and then letters, digits and underscores. -/
inductive Word : List Char → Prop
  | mk {c : Char} {cs : List Char} (first : startsName c = true)
      (others : cs.all continuesName = true) : Word (c :: cs)

/-- Digits, and maybe a point and more digits. -/
inductive Numeral : List Char → Prop
  | whole {d : Char} {ds : List Char} (first : d.isDigit = true)
      (others : ds.all Char.isDigit = true) : Numeral (d :: ds)
  | decimal {d : Char} {ds fs : List Char} (first : d.isDigit = true)
      (others : ds.all Char.isDigit = true) (nonempty : fs ≠ [])
      (fraction : fs.all Char.isDigit = true) : Numeral (d :: ds ++ '.' :: fs)

theorem not_startsName_of_isDigit {c : Char} (h : c.isDigit = true) : startsName c = false := by
  have hne : c ≠ '_' := by
    rintro rfl
    exact absurd h (by decide)
  have hdigit : '0'.val ≤ c.val ∧ c.val ≤ '9'.val := by simpa [Char.isDigit] using h
  have halpha : c.isAlpha = false := by
    refine Bool.eq_false_iff.2 fun h' => ?_
    rcases (Bool.or_eq_true c.isUpper c.isLower).mp h' with hupper | hlower
    · have hA : 'A'.val ≤ c.val := (of_decide_eq_true hupper).1
      exact absurd (UInt32.le_trans hA hdigit.2) (by decide)
    · have ha : 'a'.val ≤ c.val := of_decide_eq_true (Bool.and_eq_true_iff.1 hlower).1
      exact absurd (UInt32.le_trans ha hdigit.2) (by decide)
  rw [startsName, halpha, beq_false_of_ne hne]
  rfl

theorem continuesName_of_startsName {c : Char} (h : startsName c = true) :
    continuesName c = true := by
  simp only [startsName, continuesName, Char.isAlphanum, Bool.or_eq_true] at h ⊢
  grind

theorem continuesName_of_isDigit {c : Char} (h : c.isDigit = true) : continuesName c = true := by
  simp [continuesName, Char.isAlphanum, h]

theorem Word.all_continuesName {cs : List Char} (h : Word cs) : cs.all continuesName = true := by
  cases h with
  | mk first others => rw [List.all_cons, continuesName_of_startsName first, others, Bool.and_self]

theorem Word.append {cs ds : List Char} (hcs : Word cs) (hds : ds.all continuesName = true) :
    Word (cs ++ ds) := by
  cases hcs with
  | mk first others =>
    refine .mk first ?_
    rw [List.append_eq, List.all_append, others, hds, Bool.and_self]

theorem Numeral.exists_cons {cs : List Char} (h : Numeral cs) :
    ∃ c ds, cs = c :: ds ∧ c ≠ '-' := by
  have hne : ∀ {c : Char}, c.isDigit = true → c ≠ '-' := by
    rintro c hc rfl
    exact absurd hc (by decide)
  cases h with
  | whole first others => exact ⟨_, _, rfl, hne first⟩
  | decimal first others nonempty fraction => exact ⟨_, _, rfl, hne first⟩

theorem all_isDigit_toString (n : Nat) : (toString n).toList.all Char.isDigit = true :=
  List.all_eq_true.2 fun _ => isDigit_of_mem_toString

theorem all_continuesName_toString (n : Nat) :
    (toString n).toList.all continuesName = true :=
  List.all_eq_true.2 fun _ hc => continuesName_of_isDigit (isDigit_of_mem_toString hc)

theorem numeral_toString (n : Nat) : Numeral (toString n).toList := by
  have hdigits := all_isDigit_toString n
  cases h : (toString n).toList with
  | nil =>
    rw [show toString n = n.repr from rfl, Nat.toList_repr] at h
    exact absurd h Nat.toDigits_ne_nil
  | cons d ds =>
    rw [h, List.all_cons, Bool.and_eq_true] at hdigits
    exact .whole hdigits.1 hdigits.2

/-! ## Tokens -/

theorem take_length_takeWhile (p : Char → Bool) (cs : List Char) :
    cs.take (cs.takeWhile p).length = cs.takeWhile p :=
  (List.prefix_iff_eq_take.1 (List.takeWhile_prefix p)).symm

theorem numeral_numberTail {c : Char} (cs : List Char) (hc : c.isDigit = true) :
    Numeral (c :: cs.take (numberTail cs)) := by
  have hwhole : Numeral (c :: cs.take (cs.takeWhile Char.isDigit).length) := by
    rw [take_length_takeWhile]
    exact .whole hc List.all_takeWhile
  rw [numberTail]
  dsimp only
  split
  next fs hfs =>
    split
    · exact hwhole
    next hlength =>
      have hne : fs.takeWhile Char.isDigit ≠ [] := fun hnil => hlength (by rw [hnil]; rfl)
      rw [Nat.add_assoc, List.take_add, take_length_takeWhile, hfs, Nat.add_comm 1,
        List.take_succ_cons, take_length_takeWhile]
      exact .decimal hc List.all_takeWhile hne List.all_takeWhile
  · exact hwhole

end Scan

open Scan (Word Numeral take_length_takeWhile numeral_numberTail)

/-- The name of a symbol is a word, and its number a numeral. -/
def Symbol.Spelled : Symbol → Prop
  | .name n => Word n.toList
  | .number text => Numeral text.toList
  | _ => True

theorem spelled_of_symbolAt {c : Char} {cs : List Char} {s : Symbol} {n : Nat}
    (h : Scan.symbolAt c cs = .ok (s, n)) : s.Spelled := by
  -- The cases follow the scanner: strings, characters, numbers, words, marks and operators.
  unfold Scan.symbolAt at h
  split at h
  · split at h <;> cases h
    exact trivial
  split at h
  · cases hread : Scan.characterAt cs with
    | error fault =>
      rw [hread] at h
      cases h
    | ok r =>
      rw [hread] at h
      cases h
      exact trivial
  split at h
  next hdigit =>
    cases h
    rw [Symbol.Spelled, String.toList_ofList]
    exact numeral_numberTail cs hdigit
  split at h
  next hname =>
    cases h
    unfold Scan.word
    split
    · exact trivial
    · rw [Symbol.Spelled, String.toList_ofList, take_length_takeWhile]
      exact .mk hname List.all_takeWhile
  split at h
  · cases h
    exact trivial
  split at h
  · cases h
    exact trivial
  · cases h

/-- What is scanned is spelled as names and numbers are. -/
theorem spelled_of_tokens {p : Position} {cs : List Char} {ts : List Token}
    (h : Scan.tokens p cs = .ok ts) : ∀ t ∈ ts, t.symbol.Spelled := by
  fun_induction Scan.tokens p cs generalizing ts with
  | case1 => cases h
  | case2 =>
    cases h
    simp [Symbol.Spelled]
  | case3 => cases h
  | case4 => cases h
  | case5 _ _ _ _ _ _ _ _ _ _ hsymbol _ htokens =>
    rename_i ih
    cases h
    exact List.forall_mem_cons.2 ⟨spelled_of_symbolAt hsymbol, ih htokens⟩

/-! ## Expressions -/

/-- The names of an expression are words and its numbers are numerals, arguments of calls apart. -/
def Expr.Spelled : Expr → Prop
  | number text => Numeral text.toList
  | name n => Word n.toList
  | element base index _ => Word base.toList ∧ index.Spelled
  | call callee _ _ _ => Word callee.toList
  | unary _ operand => operand.Spelled
  | binary _ left right => left.Spelled ∧ right.Spelled

theorem ExprAt.spelled : ∀ {k : Nat} {ts : List Token} {e : Expr}, ExprAt k ts e →
    (∀ t ∈ ts, t.symbol.Spelled) → e.Spelled
  | _, _, _, .tighter _ h, hts => h.spelled hts
  | _, _, _, .binary _ left right, hts => by
    obtain ⟨hl, hr⟩ := List.forall_mem_append.1 hts
    exact ⟨left.spelled hl, right.spelled (List.forall_mem_cons.1 hr).2⟩
  | _, _, _, .unary operand, hts => operand.spelled (List.forall_mem_cons.1 hts).2
  | _, _, _, .parens inner, hts => by
    obtain ⟨hinner, -⟩ := List.forall_mem_append.1 hts
    exact inner.spelled (List.forall_mem_cons.1 hinner).2
  | _, _, _, .number, hts => hts _ List.mem_cons_self
  | _, _, _, .character, _ => Scan.numeral_toString _
  | _, _, _, .name, hts => hts _ List.mem_cons_self
  | _, _, _, .call _, hts => hts _ List.mem_cons_self
  | _, _, _, .constant, hts => hts _ List.mem_cons_self
  | _, _, _, .element index, hts => by
    obtain ⟨hopened, -⟩ := List.forall_mem_append.1 hts
    obtain ⟨hname, hindex⟩ := List.forall_mem_cons.1 hopened
    exact ⟨hname, index.spelled (List.forall_mem_cons.1 hindex).2⟩

end ClockedC
