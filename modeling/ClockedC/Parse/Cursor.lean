import ClockedC.Parse.Logged

/-!
# Reading off the front of a token sequence

A parser takes tokens off the front of a sequence. Its answer is a value and the tokens that are
left, fewer than it was given where the parser has to take something. This is what makes the parsers
of nested constructs end.

The end of the source is a token as well. No parser takes it, so that nothing behind it is ever
read.
-/

namespace ClockedC

/-- `rest` is what is left of `ts` when tokens before the end of the source have been taken off its
front. -/
def Left (rest ts : List Token) : Prop :=
  ∃ taken, ts = taken ++ rest ∧ ∀ t ∈ taken, t.symbol ≠ .eof

/-- `rest` is what is left of `ts` when at least one token has been taken off its front. -/
structure Beyond (rest ts : List Token) : Prop where
  left : Left rest ts
  length_lt : rest.length < ts.length

attribute [grind →] Beyond.length_lt

namespace Left

theorem refl (ts : List Token) : Left ts ts :=
  ⟨[], rfl, fun _ h => nomatch h⟩

theorem cons {t : Token} {rest ts : List Token} (ht : t.symbol ≠ .eof) (h : Left rest ts) :
    Left rest (t :: ts) := by
  obtain ⟨taken, rfl, htaken⟩ := h
  exact ⟨t :: taken, rfl, List.forall_mem_cons.2 ⟨ht, htaken⟩⟩

/-- May take more tokens. -/
theorem andPass {a b c : List Token} (h : Left b a) (h' : Left c b) : Left c a := by
  obtain ⟨taken, rfl, htaken⟩ := h
  obtain ⟨more, rfl, hmore⟩ := h'
  exact ⟨taken ++ more, (List.append_assoc ..).symm, List.forall_mem_append.2 ⟨htaken, hmore⟩⟩

theorem length_le {rest ts : List Token} (h : Left rest ts) : rest.length ≤ ts.length := by
  obtain ⟨taken, rfl, -⟩ := h
  rw [List.length_append]
  omega

/-- Takes more tokens. -/
theorem andThen {a b c : List Token} (h : Left b a) (h' : Beyond c b) : Beyond c a :=
  ⟨h.andPass h'.left, Nat.lt_of_lt_of_le h'.length_lt h.length_le⟩

end Left

namespace Beyond

theorem cons {t : Token} (ht : t.symbol ≠ .eof) (ts : List Token) : Beyond ts (t :: ts) :=
  ⟨Left.cons ht (Left.refl ts), Nat.lt_succ_self _⟩

/-- May take more tokens. -/
theorem andPass {a b c : List Token} (h : Beyond b a) (h' : Left c b) : Beyond c a :=
  ⟨h.left.andPass h', Nat.lt_of_le_of_lt h'.length_le h.length_lt⟩

/-- Takes more tokens. -/
theorem andThen {a b c : List Token} (h : Beyond b a) (h' : Beyond c b) : Beyond c a :=
  h.andPass h'.left

end Beyond

/-- A value that was read off `ts`, and the tokens that are left. -/
structure Read (α : Type) (ts : List Token) where
  value : α
  rest : List Token
  left : Beyond rest ts

/-- A value that was found at the front of `ts`, for which it may have been enough to look at the
tokens, and the tokens that are left. -/
structure Pass (α : Type) (ts : List Token) where
  value : α
  rest : List Token
  left : Left rest ts

/-- A value that was found without taking a token. -/
def Pass.stay {α : Type} (value : α) (ts : List Token) : Pass α ts :=
  ⟨value, ts, Left.refl ts⟩

namespace Cursor

/-- Takes the token that comes next, unless the source ends there. -/
def next? : (ts : List Token) → Option (Read Token ts)
  | [] => none
  | t :: ts => if h : t.symbol = .eof then none else some ⟨t, ts, Beyond.cons h ts⟩

@[simp]
theorem next?_nil : next? [] = none := rfl

theorem next?_cons {t : Token} (h : t.symbol ≠ .eof) (ts : List Token) :
    next? (t :: ts) = some ⟨t, ts, Beyond.cons h ts⟩ :=
  dif_neg h

/-- The symbol that comes next. -/
def symbol : List Token → Symbol
  | [] => .eof
  | t :: _ => t.symbol

/-- The position of the token that comes next. -/
def position : List Token → Position
  | [] => default
  | t :: _ => t.position

/-- The line of the token that comes next. -/
def line (ts : List Token) : Nat :=
  (position ts).line

/-- Takes a given symbol if it comes next. -/
def accept (s : Symbol) (ts : List Token) : Option (Read Unit ts) :=
  match next? ts with
  | some ⟨t, rest, h⟩ => if t.symbol = s then some ⟨(), rest, h⟩ else none
  | none => none

/-- Takes a punctuation mark, which has to come next. -/
def expect (mark : Punct) (place : Place) (ts : List Token) : Except ParseError (Read Unit ts) :=
  match accept (.punct mark) ts with
  | some r => .ok r
  | none => .error (.grammar (.missing mark place) (line ts))

/-! ## Leaving tokens out -/

/-- The tokens after the next semicolon, or from the end of the source on. -/
def afterSemicolon : List Token → List Token
  | [] => []
  | t :: ts =>
    match t.symbol with
    | .eof => t :: ts
    | .punct .semicolon => ts
    | _ => afterSemicolon ts

/-- The tokens after the next semicolon, or from the next closing brace or the end of the source
on. -/
def afterStatement : List Token → List Token
  | [] => []
  | t :: ts =>
    match t.symbol with
    | .eof | .punct .closeBrace => t :: ts
    | .punct .semicolon => ts
    | _ => afterStatement ts

/-- The tokens from the parenthesis on that closes a loop header, when `depth` more are open inside
of it. -/
def endOfHeader : (depth : Nat) → List Token → List Token
  | _, [] => []
  | depth, t :: ts =>
    match t.symbol, depth with
    | .eof, _ | .punct .closeParen, 0 => t :: ts
    | .punct .openParen, depth => endOfHeader (depth + 1) ts
    | .punct .closeParen, depth + 1 => endOfHeader depth ts
    | _, depth => endOfHeader depth ts

theorem left_afterSemicolon (ts : List Token) : Left (afterSemicolon ts) ts := by
  fun_induction afterSemicolon ts with
  | case1 => exact Left.refl []
  | case2 t ts h => exact Left.refl (t :: ts)
  | case3 t ts h => exact Left.cons (by simp [h]) (Left.refl ts)
  | case4 t ts h _ ih => exact Left.cons h ih

theorem left_afterStatement (ts : List Token) : Left (afterStatement ts) ts := by
  fun_induction afterStatement ts with
  | case1 => exact Left.refl []
  | case2 t ts h => exact Left.refl (t :: ts)
  | case3 t ts h => exact Left.refl (t :: ts)
  | case4 t ts h => exact Left.cons (by simp [h]) (Left.refl ts)
  | case5 t ts h _ _ ih => exact Left.cons h ih

theorem left_endOfHeader (depth : Nat) (ts : List Token) : Left (endOfHeader depth ts) ts := by
  fun_induction endOfHeader depth ts with
  | case1 => exact Left.refl []
  | case2 t ts | case3 t ts => exact Left.refl _
  | case4 t ts _ h ih | case5 t ts _ h ih => exact Left.cons (by simp [h]) ih
  | case6 t ts _ h _ _ _ ih => exact Left.cons h ih

theorem length_afterSemicolon_le (ts : List Token) : (afterSemicolon ts).length ≤ ts.length :=
  (left_afterSemicolon ts).length_le

grind_pattern length_afterSemicolon_le => afterSemicolon ts

end Cursor

end ClockedC
