import ClockedC.Proofs.Reading

/-!
# What can be seen of tokens

Token sequences look alike if they have the same symbols at the same positions up to their first
end, but for the texts of strings, which are seen through some function only. With the identity as
that function nothing is left out but what stands behind the first end.

* `seen` is what can be seen of a token sequence, and `Alike` compares two of them.
* `Alike.next?_cases` and `Alike.accept_cases`: the same comes next in sequences that look alike.
* `Agrees` and `AgreesLogged` say that two computations have the same outcome, up to the texts of
  strings in errors and notices. Both are closed under going on with what was read.
-/

namespace ClockedC

/-! ## Texts of strings -/

section Blur

variable (f : String → String)

/-- A symbol in which the text of a string is seen through `f`. -/
def Symbol.blur : Symbol → Symbol
  | .string text => .string (f text)
  | s => s

/-- A token in which the text of a string is seen through `f`. -/
def Token.blur (t : Token) : Token :=
  ⟨t.symbol.blur f, t.position⟩

/-- A fault in which the text of a string is seen through `f`. -/
def GrammarFault.blur : GrammarFault → GrammarFault
  | .noParameterType found => .noParameterType (found.blur f)
  | .noElement found => .noElement (found.blur f)
  | .noExpression found => .noExpression (found.blur f)
  | fault => fault

/-- A fault in which the text of a string is seen through `f`. -/
def ParseFault.blur : ParseFault → ParseFault
  | .grammar fault => .grammar (fault.blur f)
  | fault => fault

/-- An error in which the text of a string is seen through `f`. -/
def ParseError.blur (e : ParseError) : ParseError :=
  ⟨e.fault.blur f, e.line⟩

/-- A notice in which the text of a string is seen through `f`. -/
def Notice.blur : Notice → Notice
  | .strayToken found => .strayToken (found.blur f)
  | .unknownStatement line found => .unknownStatement line (found.blur f)
  | n => n

/-- What can be seen of a token sequence: the tokens up to the first end, with the texts of strings
seen through `f`. -/
def seen : List Token → List Token
  | [] => []
  | t :: ts => if t.symbol = .eof then [t] else t.blur f :: seen ts

/-- The same can be seen of two token sequences. -/
def Alike (ts us : List Token) : Prop :=
  seen f ts = seen f us

end Blur

section Identity

@[simp] theorem Symbol.blur_id (s : Symbol) : s.blur id = s := by
  cases s <;> rfl

@[simp] theorem ParseError.blur_id (e : ParseError) : e.blur id = e := by
  obtain ⟨fault, line⟩ := e
  cases fault with
  | grammar fault => cases fault <;> simp [blur, ParseFault.blur, GrammarFault.blur]
  | _ => rfl

@[simp] theorem Notice.blur_id (n : Notice) : n.blur id = n := by
  cases n <;> simp [blur]

end Identity

section Seen

variable {f : String → String} {s s' : Symbol} {ts us : List Token}

theorem Symbol.blur_eq_eof_iff : s.blur f = .eof ↔ s = .eof := by
  cases s <;> simp [blur]

/-- Symbols that look the same are the same, unless both are strings. -/
theorem Symbol.eq_or_strings_of_blur_eq (h : s.blur f = s'.blur f) :
    s = s' ∨ ∃ a b, s = .string a ∧ s' = .string b ∧ f a = f b := by
  cases s <;> cases s' <;> simp_all [blur]

theorem seen_of_eof {t : Token} (h : t.symbol = .eof) (ts : List Token) : seen f (t :: ts) = [t] :=
  if_pos h

theorem seen_of_ne {t : Token} (h : t.symbol ≠ .eof) (ts : List Token) :
    seen f (t :: ts) = t.blur f :: seen f ts :=
  if_neg h

theorem position_seen (ts : List Token) : Cursor.position (seen f ts) = Cursor.position ts := by
  cases ts with
  | nil => rfl
  | cons t ts =>
    by_cases h : t.symbol = .eof
    · rw [seen_of_eof h]
      rfl
    · rw [seen_of_ne h]
      rfl

theorem symbol_seen (ts : List Token) : Cursor.symbol (seen f ts) = (Cursor.symbol ts).blur f := by
  cases ts with
  | nil => rfl
  | cons t ts =>
    by_cases h : t.symbol = .eof
    · rw [seen_of_eof h, Cursor.symbol_cons, Cursor.symbol_cons, h]
      rfl
    · rw [seen_of_ne h]
      rfl

theorem afterSemicolon_seen (ts : List Token) :
    Cursor.afterSemicolon (seen f ts) = seen f (Cursor.afterSemicolon ts) := by
  induction ts with
  | nil => rfl
  | cons t ts ih =>
    obtain ⟨s, p⟩ := t
    cases s with
    | eof => rfl
    | punct mark =>
      cases mark with
      | semicolon => rfl
      | _ => exact ih
    | _ => exact ih

theorem afterStatement_seen (ts : List Token) :
    Cursor.afterStatement (seen f ts) = seen f (Cursor.afterStatement ts) := by
  induction ts with
  | nil => rfl
  | cons t ts ih =>
    obtain ⟨s, p⟩ := t
    cases s with
    | eof => rfl
    | punct mark =>
      cases mark with
      | semicolon => rfl
      | closeBrace => rfl
      | _ => exact ih
    | _ => exact ih

theorem endOfHeader_seen (depth : Nat) (ts : List Token) :
    Cursor.endOfHeader depth (seen f ts) = seen f (Cursor.endOfHeader depth ts) := by
  induction ts generalizing depth with
  | nil => rfl
  | cons t ts ih =>
    obtain ⟨s, p⟩ := t
    cases s with
    | eof => rfl
    | punct mark =>
      cases mark with
      | openParen => exact ih (depth + 1)
      | closeParen =>
        cases depth with
        | zero => rfl
        | succ depth => exact ih depth
      | _ => exact ih depth
    | _ => exact ih depth

theorem insideBrackets_seen (depth : Nat) (ts : List Token) :
    Parse.insideBrackets depth (seen f ts) =
      (Parse.insideBrackets depth ts).map (List.map (Token.blur f)) := by
  induction ts generalizing depth with
  | nil => rfl
  | cons t ts ih =>
    have hcons : ∀ d, (Parse.insideBrackets d (seen f ts)).map (t.blur f :: ·) =
        ((Parse.insideBrackets d ts).map (t :: ·)).map (List.map (Token.blur f)) := by
      intro d
      rw [ih, Option.map_map, Option.map_map]
      rfl
    obtain ⟨s, p⟩ := t
    cases s with
    | eof => cases depth <;> rfl
    | punct mark =>
      cases mark with
      | openParen => exact hcons (depth + 1)
      | openBracket => exact hcons (depth + 1)
      | closeParen => exact hcons (depth - 1)
      | closeBracket =>
        cases depth with
        | zero => rfl
        | succ depth => exact hcons depth
      | semicolon => cases depth <;> rfl
      | _ => exact hcons depth
    | _ => exact hcons depth

namespace Alike

variable (h : Alike f ts us)

include h

theorem position_eq : Cursor.position ts = Cursor.position us := by
  rw [← position_seen (f := f) ts, h, position_seen]

theorem line_eq : Cursor.line ts = Cursor.line us :=
  congrArg Position.line h.position_eq

theorem blur_symbol_eq : (Cursor.symbol ts).blur f = (Cursor.symbol us).blur f := by
  rw [← symbol_seen, h, symbol_seen]

/-- What is no string comes next in both sequences, or in none. -/
theorem symbol_eq_iff (hs : ∀ a, s ≠ .string a) :
    Cursor.symbol ts = s ↔ Cursor.symbol us = s := by
  rcases Symbol.eq_or_strings_of_blur_eq h.blur_symbol_eq with heq | ⟨a, b, ha, hb, -⟩
  · rw [heq]
  · rw [ha, hb]
    exact iff_of_false (fun hc => hs a hc.symm) (fun hc => hs b hc.symm)

theorem opensOperand_eq :
    (Cursor.symbol ts).opensOperand = (Cursor.symbol us).opensOperand := by
  rcases Symbol.eq_or_strings_of_blur_eq h.blur_symbol_eq with heq | ⟨a, b, ha, hb, -⟩
  · rw [heq]
  · rw [ha, hb]
    rfl

theorem afterSemicolon : Alike f (Cursor.afterSemicolon ts) (Cursor.afterSemicolon us) := by
  rw [Alike, ← afterSemicolon_seen, h, afterSemicolon_seen]

theorem afterStatement : Alike f (Cursor.afterStatement ts) (Cursor.afterStatement us) := by
  rw [Alike, ← afterStatement_seen, h, afterStatement_seen]

theorem endOfHeader (depth : Nat) :
    Alike f (Cursor.endOfHeader depth ts) (Cursor.endOfHeader depth us) := by
  rw [Alike, ← endOfHeader_seen, h, endOfHeader_seen]

/-- Either the same symbol comes next in both sequences, or a string does in both, or both end. -/
theorem next?_cases :
    (∃ s p rest rest' hr hr', Alike f rest rest' ∧ Cursor.next? ts = some ⟨⟨s, p⟩, rest, hr⟩ ∧
      Cursor.next? us = some ⟨⟨s, p⟩, rest', hr'⟩) ∨
    (∃ a b p rest rest' hr hr', f a = f b ∧ Alike f rest rest' ∧
      Cursor.next? ts = some ⟨⟨.string a, p⟩, rest, hr⟩ ∧
      Cursor.next? us = some ⟨⟨.string b, p⟩, rest', hr'⟩) ∨
    Cursor.next? ts = none ∧ Cursor.next? us = none := by
  have heof := h.symbol_eq_iff (s := .eof) (by simp)
  cases ts with
  | nil => exact .inr (.inr ⟨rfl, Cursor.next?_eq_none (heof.1 rfl)⟩)
  | cons t rest =>
    by_cases ht : t.symbol = .eof
    · exact .inr (.inr ⟨Cursor.next?_eq_none ht, Cursor.next?_eq_none (heof.1 ht)⟩)
    cases us with
    | nil => exact absurd (heof.2 rfl) ht
    | cons u rest' =>
      have hu : u.symbol ≠ .eof := fun hu => ht (heof.2 hu)
      obtain ⟨hblur, hrest⟩ : t.blur f = u.blur f ∧ Alike f rest rest' := by
        rw [Alike, seen_of_ne ht, seen_of_ne hu] at h
        exact List.cons.inj h
      obtain ⟨s, p⟩ := t
      obtain ⟨s', p'⟩ := u
      obtain ⟨hsymbol, rfl⟩ := Token.mk.inj hblur
      rcases Symbol.eq_or_strings_of_blur_eq hsymbol with rfl | ⟨a, b, rfl, rfl, hab⟩
      · exact .inl ⟨s, p, rest, rest', _, _, hrest, Cursor.next?_cons ht rest,
          Cursor.next?_cons hu rest'⟩
      · exact .inr (.inl ⟨a, b, p, rest, rest', _, _, hab, hrest, Cursor.next?_cons ht rest,
          Cursor.next?_cons hu rest'⟩)

/-- What is no string is taken off both sequences, or off none. -/
theorem accept_cases (s : Symbol) (hs : ∀ a, .string a ≠ s) :
    (∃ rest rest' hr hr', Alike f rest rest' ∧ Cursor.accept s ts = some ⟨(), rest, hr⟩ ∧
      Cursor.accept s us = some ⟨(), rest', hr'⟩) ∨
    Cursor.accept s ts = none ∧ Cursor.accept s us = none := by
  unfold Cursor.accept
  rcases h.next?_cases with ⟨s', p, rest, rest', hr, hr', hrest, hts, hus⟩ |
    ⟨a, b, p, rest, rest', hr, hr', -, hrest, hts, hus⟩ | ⟨hts, hus⟩
  · rw [hts, hus]
    dsimp only
    by_cases hs' : s' = s
    · rw [if_pos hs', if_pos hs']
      exact .inl ⟨rest, rest', hr, hr', hrest, rfl, rfl⟩
    · rw [if_neg hs', if_neg hs']
      exact .inr ⟨rfl, rfl⟩
  · rw [hts, hus]
    dsimp only
    rw [if_neg (hs a), if_neg (hs b)]
    exact .inr ⟨rfl, rfl⟩
  · rw [hts, hus]
    exact .inr ⟨rfl, rfl⟩

end Alike

end Seen

/-! ## Runs that agree -/

section Agreement

variable {f : String → String} {α β γ δ : Type}

/-- Two outcomes are both values, related by `R`, or both the same error up to the texts of
strings. -/
inductive Agrees (f : String → String) (R : α → β → Prop) :
    Except ParseError α → Except ParseError β → Prop
  | ok {a : α} {b : β} (h : R a b) : Agrees f R (.ok a) (.ok b)
  | error {e e' : ParseError} (h : e.blur f = e'.blur f) : Agrees f R (.error e) (.error e')

/-- Two computations give the same notices, up to the texts of strings, and their outcomes agree. -/
structure AgreesLogged (f : String → String) (R : α → β → Prop) (x : Logged α) (y : Logged β) :
    Prop where
  log : x.log.map (Notice.blur f) = y.log.map (Notice.blur f)
  outcome : Agrees f R x.outcome y.outcome

variable {ts us : List Token}

/-- The same value was read, and the sequences still look alike. -/
def SameRead (f : String → String) (r : Read α ts) (r' : Read α us) : Prop :=
  r.value = r'.value ∧ Alike f r.rest r'.rest

/-- The same value was found, and the sequences still look alike. -/
def SamePass (f : String → String) (r : Pass α ts) (r' : Pass α us) : Prop :=
  r.value = r'.value ∧ Alike f r.rest r'.rest

namespace Agrees

theorem bind {R : α → β → Prop} {S : γ → δ → Prop} {x : Except ParseError α}
    {y : Except ParseError β} {k : α → Except ParseError γ} {k' : β → Except ParseError δ}
    (h : Agrees f R x y) (hk : ∀ a b, R a b → Agrees f S (k a) (k' b)) :
    Agrees f S (x >>= k) (y >>= k') := by
  cases h with
  | ok h => exact hk _ _ h
  | error h => exact .error h

/-- Two runs go on with what both of them have read. -/
theorem bindRead {S : γ → δ → Prop} {x : Except ParseError (Read α ts)}
    {y : Except ParseError (Read α us)} {k : Read α ts → Except ParseError γ}
    {k' : Read α us → Except ParseError δ} (h : Agrees f (SameRead f) x y)
    (hk : ∀ a rest rest' hr hr', Alike f rest rest' →
      Agrees f S (k ⟨a, rest, hr⟩) (k' ⟨a, rest', hr'⟩)) :
    Agrees f S (x >>= k) (y >>= k') := by
  refine h.bind ?_
  rintro ⟨a, rest, hr⟩ ⟨b, rest', hr'⟩ ⟨rfl, hrest⟩
  exact hk a rest rest' hr hr' hrest

theorem bindPass {S : γ → δ → Prop} {x : Except ParseError (Pass α ts)}
    {y : Except ParseError (Pass α us)} {k : Pass α ts → Except ParseError γ}
    {k' : Pass α us → Except ParseError δ} (h : Agrees f (SamePass f) x y)
    (hk : ∀ a rest rest' hr hr', Alike f rest rest' →
      Agrees f S (k ⟨a, rest, hr⟩) (k' ⟨a, rest', hr'⟩)) :
    Agrees f S (x >>= k) (y >>= k') := by
  refine h.bind ?_
  rintro ⟨a, rest, hr⟩ ⟨b, rest', hr'⟩ ⟨rfl, hrest⟩
  exact hk a rest rest' hr hr' hrest

theorem read {a : α} {rest rest' : List Token} {hr : Beyond rest ts} {hr' : Beyond rest' us}
    (h : Alike f rest rest') :
    Agrees f (SameRead f) (.ok ⟨a, rest, hr⟩) (.ok ⟨a, rest', hr'⟩) :=
  .ok ⟨rfl, h⟩

theorem pass {a : α} {rest rest' : List Token} {hr : Left rest ts} {hr' : Left rest' us}
    (h : Alike f rest rest') :
    Agrees f (SamePass f) (.ok ⟨a, rest, hr⟩) (.ok ⟨a, rest', hr'⟩) :=
  .ok ⟨rfl, h⟩

/-- The same outcome on both sides. -/
theorem same (x : Except ParseError α) : Agrees f Eq x x := by
  cases x with
  | ok a => exact .ok rfl
  | error e => exact .error rfl

end Agrees

namespace AgreesLogged

theorem bind {R : α → β → Prop} {S : γ → δ → Prop} {x : Logged α} {y : Logged β}
    {k : α → Logged γ} {k' : β → Logged δ} (h : AgreesLogged f R x y)
    (hk : ∀ a b, R a b → AgreesLogged f S (k a) (k' b)) :
    AgreesLogged f S (x >>= k) (y >>= k') := by
  obtain ⟨log, x⟩ := x
  obtain ⟨log', y⟩ := y
  obtain ⟨hlog, houtcome⟩ := h
  cases houtcome with
  | error h => exact ⟨hlog, .error h⟩
  | ok h =>
    obtain ⟨hlog', houtcome⟩ := hk _ _ h
    refine ⟨?_, houtcome⟩
    show (log ++ _).map _ = (log' ++ _).map _
    rw [List.map_append, List.map_append, show log.map _ = log'.map _ from hlog, hlog']

theorem bindRead {S : γ → δ → Prop} {x : Logged (Read α ts)} {y : Logged (Read α us)}
    {k : Read α ts → Logged γ} {k' : Read α us → Logged δ} (h : AgreesLogged f (SameRead f) x y)
    (hk : ∀ a rest rest' hr hr', Alike f rest rest' →
      AgreesLogged f S (k ⟨a, rest, hr⟩) (k' ⟨a, rest', hr'⟩)) :
    AgreesLogged f S (x >>= k) (y >>= k') := by
  refine h.bind ?_
  rintro ⟨a, rest, hr⟩ ⟨b, rest', hr'⟩ ⟨rfl, hrest⟩
  exact hk a rest rest' hr hr' hrest

theorem bindPass {S : γ → δ → Prop} {x : Logged (Pass α ts)} {y : Logged (Pass α us)}
    {k : Pass α ts → Logged γ} {k' : Pass α us → Logged δ} (h : AgreesLogged f (SamePass f) x y)
    (hk : ∀ a rest rest' hr hr', Alike f rest rest' →
      AgreesLogged f S (k ⟨a, rest, hr⟩) (k' ⟨a, rest', hr'⟩)) :
    AgreesLogged f S (x >>= k) (y >>= k') := by
  refine h.bind ?_
  rintro ⟨a, rest, hr⟩ ⟨b, rest', hr'⟩ ⟨rfl, hrest⟩
  exact hk a rest rest' hr hr' hrest

/-- Notices that look the same before computations that agree. -/
theorem tell {S : γ → δ → Prop} {n n' : Notice} (hn : n.blur f = n'.blur f)
    {k : Unit → Logged γ} {k' : Unit → Logged δ} (hk : AgreesLogged f S (k ()) (k' ())) :
    AgreesLogged f S (Logged.tell n >>= k) (Logged.tell n' >>= k') :=
  bind (R := Eq) ⟨congrArg (fun n => [n]) hn, .ok rfl⟩ fun _ _ _ => hk

theorem lift {R : α → β → Prop} {x : Except ParseError α} {y : Except ParseError β}
    (h : Agrees f R x y) : AgreesLogged f R (liftM x : Logged α) (liftM y : Logged β) :=
  ⟨rfl, h⟩

theorem read {a : α} {rest rest' : List Token} {hr : Beyond rest ts} {hr' : Beyond rest' us}
    (h : Alike f rest rest') :
    AgreesLogged f (SameRead f) (pure ⟨a, rest, hr⟩) (pure ⟨a, rest', hr'⟩) :=
  ⟨rfl, .read h⟩

theorem pass {a : α} {rest rest' : List Token} {hr : Left rest ts} {hr' : Left rest' us}
    (h : Alike f rest rest') :
    AgreesLogged f (SamePass f) (pure ⟨a, rest, hr⟩) (pure ⟨a, rest', hr'⟩) :=
  ⟨rfl, .pass h⟩

end AgreesLogged

end Agreement

end ClockedC
