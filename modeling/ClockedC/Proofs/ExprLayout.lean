import ClockedC.Proofs.VhdlLayout
import ClockedC.Vhdl.Expr

/-!
# The layout of the text of expressions

The text of an expression is built from the texts of its operands. Each operation is meant for the
operands it has in the source, and `Expr.image` is the tree that says so. `Expr.layout` is the text
with its parentheses.

* `Expr.text_layout`: the layout is written as the text of the expression is.
* `Expr.tree_layout`: it is meant as the image of the expression.
* `Expr.Spelled.wellSpelled`, `Expr.plain_layout_iff`: it has the names and numbers of the
  expression, and words of its own that are no words for operators.
-/

namespace ClockedC

open Scan (Word Numeral)
open Vhdl (Operator Tree Layout)

/-! ## What an expression is meant as -/

/-- The ways to write a binary operation. -/
inductive BinaryOp.Form where
  | logical (op : Operator)
  | comparison (op : Operator)
  | bitwise (op : Operator)
  | shift (f : String)
  | arithmetic (op : Operator)

/-- How a binary operation is written. -/
def BinaryOp.form : BinaryOp → Form
  | and => .logical .and
  | or => .logical .or
  | eq => .comparison .eq
  | ne => .comparison .ne
  | lt => .comparison .lt
  | le => .comparison .le
  | gt => .comparison .gt
  | ge => .comparison .ge
  | bitAnd => .bitwise .and
  | bitOr => .bitwise .or
  | bitXor => .bitwise .xor
  | shiftLeft => .shift "shift_left"
  | shiftRight => .shift "shift_right"
  | add => .arithmetic .add
  | sub => .arithmetic .sub
  | mul => .arithmetic .mul
  | div => .arithmetic .div
  | mod => .arithmetic .mod

/-- An integer literal, with its sign. -/
def Vhdl.Tree.integer : Int → Tree
  | .ofNat n => .literal (toString n)
  | .negSucc n => .signed .sub (.literal (toString (n + 1)))

namespace Expr

/-! Each of the following takes an operand together with its image. -/

/-- An operand that stands for a position or a count. -/
def imageCount (e : Expr) (t : Tree) : Tree :=
  match e.literalValue? with
  | some n => .integer n
  | none => .apply "to_integer" [.apply "unsigned" [t]]

/-- The operand of a minus sign, and the sign. -/
def imageNegated (e : Expr) (t : Tree) : Tree :=
  match e with
  | number _ => .apply "to_signed" [.signed .sub t, .literal "32"]
  | name _ | element .. => .signed .sub (.apply "unsigned" [t])
  | _ => .binary .sub (.literal "0") t

/-- The operand of a logical negation, and the negation. -/
def imageInverted (e : Expr) (t : Tree) : Tree :=
  if e.isTruthValue then .inverted t else .binary .eq (.apply "unsigned" [t]) (.literal "0")

/-- An operand of a logical operator. -/
def imageLogical (e : Expr) (t : Tree) : Tree :=
  if e.isTruthValue then t else .binary .ne (.apply "unsigned" [t]) (.literal "0")

/-- An operand of a comparison. -/
def imageCompared (e : Expr) (t : Tree) : Tree :=
  match e with
  | number _ => .apply "to_unsigned" [t, .literal "32"]
  | unary .neg (number _) => t
  | _ => .apply "unsigned" [t]

/-- A binary operation, given its operands and their images. -/
def imageBinary (op : BinaryOp) (left right : Expr) (l r : Tree) : Tree :=
  match op.form with
  | .logical op => .binary op (left.imageLogical l) (right.imageLogical r)
  | .comparison op => .binary op (left.imageCompared l) (right.imageCompared r)
  | .bitwise op => .binary op (.apply "unsigned" [l]) (.apply "unsigned" [r])
  | .shift f => .apply f [.apply "unsigned" [l], right.imageCount r]
  | .arithmetic op => .binary op l r

/-- A unary operation, given its operand and the image of it. -/
def imageUnary (op : UnaryOp) (operand : Expr) (t : Tree) : Tree :=
  match op with
  | .neg => operand.imageNegated t
  | .not => operand.imageInverted t
  | .bitNot => .inverted (.apply "unsigned" [t])

/-- The tree that the text of an expression is meant as: every operation is applied to the images of
its own operands. -/
def image : Expr → Tree
  | number text => .literal text
  | name n => .name n
  | element base index _ => .apply base [index.imageCount index.image]
  | call callee _ unit _ => .name (resultWire callee unit)
  | unary op operand => imageUnary op operand operand.image
  | binary op left right => imageBinary op left right left.image right.image

/-- The names of variables and arrays in the text of an expression. -/
def shownNames : Expr → List String
  | number _ | call .. => []
  | name n => [n]
  | element base index _ => base :: index.shownNames
  | unary _ operand => operand.shownNames
  | binary _ left right => left.shownNames ++ right.shownNames

end Expr

/-! ## The layout of the text -/

/-- An integer literal, with its sign. -/
def Vhdl.Layout.integer : Int → Layout
  | .ofNat n => .number (toString n)
  | .negSucc n => .negated (.number (toString (n + 1)))

namespace Expr

/-! Each of the following takes an operand together with its layout. -/

/-- An operand that stands for a position or a count. -/
def layoutCount (e : Expr) (a : Layout) : Layout :=
  match e.literalValue? with
  | some n => .integer n
  | none => .apply "to_integer" (.apply "unsigned" a)

/-- The operand of a minus sign, and the sign. -/
def layoutNegated (e : Expr) (a : Layout) : Layout :=
  match e with
  | number _ => .applyTwo "to_signed" (.negated a) (.number "32")
  | name _ | element .. => .negated (.apply "unsigned" a)
  | _ => .binary .sub (.number "0") (.parens a)

/-- The operand of a logical negation, and the negation. -/
def layoutInverted (e : Expr) (a : Layout) : Layout :=
  if e.isTruthValue then .inverted (.parens a)
  else .parens (.binary .eq (.apply "unsigned" a) (.number "0"))

/-- An operand of a logical operator. -/
def layoutLogical (e : Expr) (a : Layout) : Layout :=
  if e.isTruthValue then .parens a else .binary .ne (.apply "unsigned" a) (.number "0")

/-- An operand of a comparison. -/
def layoutCompared (e : Expr) (a : Layout) : Layout :=
  match e with
  | number _ => .applyTwo "to_unsigned" a (.number "32")
  | unary .neg (number _) => a
  | _ => .apply "unsigned" a

/-- An operand of an arithmetic operator. -/
def layoutArithmetic (e : Expr) (a : Layout) : Layout :=
  match e with
  | binary .. => .parens a
  | _ => a

/-- A binary operation, given its operands and their layouts. -/
def layoutBinary (op : BinaryOp) (left right : Expr) (l r : Layout) : Layout :=
  match op.form with
  | .logical op => .parens (.binary op (left.layoutLogical l) (right.layoutLogical r))
  | .comparison op => .binary op (left.layoutCompared l) (right.layoutCompared r)
  | .bitwise op => .binary op (.apply "unsigned" l) (.apply "unsigned" r)
  | .shift f => .applyTwo f (.apply "unsigned" l) (right.layoutCount r)
  | .arithmetic op => .binary op (left.layoutArithmetic l) (right.layoutArithmetic r)

/-- A unary operation, given its operand and the layout of it. -/
def layoutUnary (op : UnaryOp) (operand : Expr) (a : Layout) : Layout :=
  match op with
  | .neg => operand.layoutNegated a
  | .not => operand.layoutInverted a
  | .bitNot => .inverted (.apply "unsigned" a)

/-- The text of an expression with the parentheses that it has. -/
def layout : Expr → Layout
  | number text => .number text
  | name n => .name n
  | element base index _ => .apply base (index.layoutCount index.layout)
  | call callee _ unit _ => .name (resultWire callee unit)
  | unary op operand => layoutUnary op operand operand.layout
  | binary op left right => layoutBinary op left right left.layout right.layout

/-! The text of each layout is the text of the expression. -/

theorem text_layoutCount (e : Expr) (a : Layout) :
    (e.layoutCount a).text = e.vhdlCount a.text := by
  rw [layoutCount, vhdlCount]
  cases e.literalValue? with
  | none => exact String.toList_inj.1 (by simp [Layout.text, toString])
  | some n =>
    cases n with
    | ofNat n => rfl
    | negSucc n => rfl

theorem text_layoutNegated (e : Expr) (a : Layout) :
    (e.layoutNegated a).text = e.vhdlNegated a.text := by
  apply String.toList_inj.1
  unfold layoutNegated vhdlNegated
  split <;> simp [Layout.text, Operator.text, toString]

theorem text_layoutInverted (e : Expr) (a : Layout) :
    (e.layoutInverted a).text = e.vhdlInverted a.text := by
  apply String.toList_inj.1
  unfold layoutInverted vhdlInverted
  split <;> simp [Layout.text, Operator.text, toString]

theorem text_layoutLogical (e : Expr) (a : Layout) :
    (e.layoutLogical a).text = e.vhdlLogical a.text := by
  apply String.toList_inj.1
  unfold layoutLogical vhdlLogical
  split <;> simp [Layout.text, Operator.text, toString]

theorem text_layoutCompared (e : Expr) (a : Layout) :
    (e.layoutCompared a).text = e.vhdlCompared a.text := by
  apply String.toList_inj.1
  unfold layoutCompared vhdlCompared
  split <;> simp [Layout.text, toString]

theorem text_layoutArithmetic (e : Expr) (a : Layout) :
    (e.layoutArithmetic a).text = e.vhdlArithmetic a.text := by
  unfold layoutArithmetic vhdlArithmetic
  split <;> simp [Layout.text, toString]

theorem text_between {a b : Layout} {x y : String} (o : Operator) (ha : a.text = x)
    (hb : b.text = y) : (Layout.binary o a b).text = x ++ " " ++ o.text ++ " " ++ y := by
  rw [Layout.text, ha, hb]

theorem text_between_parens {a b : Layout} {x y : String} (o : Operator) (ha : a.text = x)
    (hb : b.text = y) :
    (Layout.parens (.binary o a b)).text = "(" ++ x ++ (" " ++ o.text ++ " ") ++ y ++ ")" := by
  rw [Layout.text, text_between o ha hb]
  exact String.toList_inj.1 (by simp)

theorem text_between_unsigned (o : Operator) (l r : Layout) :
    (Layout.binary o (.apply "unsigned" l) (.apply "unsigned" r)).text =
      "unsigned(" ++ l.text ++ ") " ++ o.text ++ " unsigned(" ++ r.text ++ ")" :=
  String.toList_inj.1 (by simp [Layout.text])

theorem text_shifted {b : Layout} {y : String} (f : String) (l : Layout) (hb : b.text = y) :
    (Layout.applyTwo f (.apply "unsigned" l) b).text =
      f ++ "(" ++ "unsigned(" ++ l.text ++ "), " ++ y ++ ")" := by
  rw [Layout.text, hb]
  exact String.toList_inj.1 (by simp [Layout.text])

theorem text_layoutBinary (op : BinaryOp) (left right : Expr) (l r : Layout) :
    (layoutBinary op left right l r).text = vhdlBinary op left right l.text r.text := by
  have hlogical := fun o =>
    text_between_parens o (text_layoutLogical left l) (text_layoutLogical right r)
  have hcompared := fun o =>
    text_between o (text_layoutCompared left l) (text_layoutCompared right r)
  have harithmetic := fun o =>
    text_between o (text_layoutArithmetic left l) (text_layoutArithmetic right r)
  have hshifted := fun f => text_shifted f l (text_layoutCount right r)
  cases op with
  | and => exact hlogical .and
  | or => exact hlogical .or
  | eq => exact hcompared .eq
  | ne => exact hcompared .ne
  | lt => exact hcompared .lt
  | le => exact hcompared .le
  | gt => exact hcompared .gt
  | ge => exact hcompared .ge
  | bitAnd => exact text_between_unsigned .and l r
  | bitOr => exact text_between_unsigned .or l r
  | bitXor => exact text_between_unsigned .xor l r
  | shiftLeft => exact hshifted "shift_left"
  | shiftRight => exact hshifted "shift_right"
  | add => exact harithmetic .add
  | sub => exact harithmetic .sub
  | mul => exact harithmetic .mul
  | div => exact harithmetic .div
  | mod => exact harithmetic .mod

theorem text_layoutUnary (op : UnaryOp) (operand : Expr) (a : Layout) :
    (layoutUnary op operand a).text = vhdlUnary op operand a.text := by
  cases op with
  | neg => exact text_layoutNegated operand a
  | not => exact text_layoutInverted operand a
  | bitNot => exact String.toList_inj.1 (by simp [layoutUnary, vhdlUnary, Layout.text, toString])

theorem text_layout : (e : Expr) → e.layout.text = e.vhdl
  | number _ => rfl
  | name _ => rfl
  | call .. => rfl
  | element base index _ => by
    have h := text_layoutCount index index.layout
    rw [text_layout index] at h
    exact congrArg (fun t => base ++ "(" ++ t ++ ")") h
  | unary op operand => by
    have h := text_layoutUnary op operand operand.layout
    rwa [text_layout operand] at h
  | binary op left right => by
    have h := text_layoutBinary op left right left.layout right.layout
    rwa [text_layout left, text_layout right] at h

/-! Without its parentheses, each layout is the image of the expression. -/

theorem tree_layoutCount (e : Expr) (a : Layout) :
    (e.layoutCount a).tree = e.imageCount a.tree := by
  unfold layoutCount imageCount
  cases e.literalValue? with
  | none => rfl
  | some n =>
    cases n with
    | ofNat n => rfl
    | negSucc n => rfl

theorem tree_layoutNegated (e : Expr) (a : Layout) :
    (e.layoutNegated a).tree = e.imageNegated a.tree := by
  unfold layoutNegated imageNegated
  split <;> rfl

theorem tree_layoutInverted (e : Expr) (a : Layout) :
    (e.layoutInverted a).tree = e.imageInverted a.tree := by
  unfold layoutInverted imageInverted
  split <;> rfl

theorem tree_layoutLogical (e : Expr) (a : Layout) :
    (e.layoutLogical a).tree = e.imageLogical a.tree := by
  unfold layoutLogical imageLogical
  split <;> rfl

theorem tree_layoutCompared (e : Expr) (a : Layout) :
    (e.layoutCompared a).tree = e.imageCompared a.tree := by
  unfold layoutCompared imageCompared
  split <;> rfl

theorem tree_layoutArithmetic (e : Expr) (a : Layout) : (e.layoutArithmetic a).tree = a.tree := by
  unfold layoutArithmetic
  split <;> rfl

theorem tree_layoutBinary (op : BinaryOp) (left right : Expr) (l r : Layout) :
    (layoutBinary op left right l r).tree = imageBinary op left right l.tree r.tree := by
  unfold layoutBinary imageBinary
  cases op.form <;>
    simp [Layout.tree, tree_layoutLogical, tree_layoutCompared, tree_layoutCount,
      tree_layoutArithmetic]

theorem tree_layoutUnary (op : UnaryOp) (operand : Expr) (a : Layout) :
    (layoutUnary op operand a).tree = imageUnary op operand a.tree := by
  cases op with
  | neg => exact tree_layoutNegated operand a
  | not => exact tree_layoutInverted operand a
  | bitNot => rfl

theorem tree_layout : (e : Expr) → e.layout.tree = e.image
  | number _ => rfl
  | name _ => rfl
  | call .. => rfl
  | element base index _ => by
    rw [layout, image, ← tree_layout index, ← tree_layoutCount]
    rfl
  | unary op operand => by
    rw [layout, image, ← tree_layout operand, ← tree_layoutUnary]
  | binary op left right => by
    rw [layout, image, ← tree_layout left, ← tree_layout right, ← tree_layoutBinary]

end Expr

/-! ## Spelling -/

theorem word_resultWire {callee : String} (h : Word callee.toList) (unit : Option Nat) :
    Word (resultWire callee unit).toList := by
  cases unit with
  | none =>
    rw [show resultWire callee none = callee ++ "_result" from rfl, String.toList_append]
    exact h.append (by decide)
  | some n =>
    have hdigits : (toString n).toList.all Scan.continuesName = true :=
      List.all_eq_true.2 fun c hc => Scan.continuesName_of_isDigit (isDigit_of_mem_toString hc)
    have hcall : Word "call_".toList := .mk (by decide) (by decide)
    have hcallee : Word ("call_".toList ++ callee.toList) := hcall.append h.all_continuesName
    rw [show resultWire callee (some n) = "call_" ++ callee ++ "_" ++ toString n ++ "_res" from rfl]
    simp only [String.toList_append]
    exact ((hcallee.append (by decide)).append hdigits).append (by decide)

namespace Expr

theorem wellSpelled_unsigned {a : Layout} (h : a.WellSpelled) :
    (Layout.apply "unsigned" a).WellSpelled :=
  ⟨.mk (by decide) (by decide), h⟩

theorem wellSpelled_integer (n : Int) : (Layout.integer n).WellSpelled := by
  cases n with
  | ofNat n => exact Scan.numeral_toString n
  | negSucc n =>
    have h := Scan.numeral_toString (n + 1)
    exact ⟨h, h.exists_cons⟩

theorem wellSpelled_layoutCount {e : Expr} {a : Layout} (h : a.WellSpelled) :
    (e.layoutCount a).WellSpelled := by
  unfold layoutCount
  split
  · exact wellSpelled_integer _
  · exact ⟨.mk (by decide) (by decide), wellSpelled_unsigned h⟩

theorem wellSpelled_negated_unsigned {a : Layout} (h : a.WellSpelled) :
    (Layout.negated (.apply "unsigned" a)).WellSpelled :=
  ⟨wellSpelled_unsigned h, 'u', _, by simp [Layout.text]; rfl, by decide⟩

theorem wellSpelled_layoutNegated {e : Expr} (he : e.Spelled) (h : e.layout.WellSpelled) :
    (e.layoutNegated e.layout).WellSpelled := by
  unfold layoutNegated
  split
  · exact ⟨.mk (by decide) (by decide), ⟨h, Numeral.exists_cons he⟩, .whole (by decide) (by decide)⟩
  · exact wellSpelled_negated_unsigned h
  · exact wellSpelled_negated_unsigned h
  · exact ⟨.whole (by decide) (by decide), h⟩

theorem wellSpelled_comparedWithZero (op : Operator) {a : Layout} (h : a.WellSpelled) :
    (Layout.binary op (.apply "unsigned" a) (.number "0")).WellSpelled :=
  ⟨wellSpelled_unsigned h, .whole (by decide) (by decide)⟩

theorem wellSpelled_layoutUnary {op : UnaryOp} {e : Expr} (he : e.Spelled)
    (h : e.layout.WellSpelled) : (layoutUnary op e e.layout).WellSpelled := by
  cases op with
  | neg => exact wellSpelled_layoutNegated he h
  | bitNot => exact wellSpelled_unsigned h
  | not =>
    unfold layoutUnary layoutInverted
    dsimp only
    split
    · exact h
    · exact wellSpelled_comparedWithZero .eq h

theorem wellSpelled_layoutLogical {e : Expr} {a : Layout} (h : a.WellSpelled) :
    (e.layoutLogical a).WellSpelled := by
  unfold layoutLogical
  split
  · exact h
  · exact wellSpelled_comparedWithZero .ne h

theorem wellSpelled_layoutCompared {e : Expr} {a : Layout} (h : a.WellSpelled) :
    (e.layoutCompared a).WellSpelled := by
  unfold layoutCompared
  split
  · exact ⟨.mk (by decide) (by decide), h, .whole (by decide) (by decide)⟩
  · exact h
  · exact wellSpelled_unsigned h

theorem wellSpelled_layoutArithmetic {e : Expr} {a : Layout} (h : a.WellSpelled) :
    (e.layoutArithmetic a).WellSpelled := by
  unfold layoutArithmetic
  split
  · exact h
  · exact h

theorem word_of_shift {op : BinaryOp} {f : String} (h : op.form = .shift f) : Word f.toList := by
  cases op <;> cases h <;> exact .mk (by decide) (by decide)

theorem wellSpelled_layoutBinary {op : BinaryOp} {left right : Expr} {l r : Layout}
    (hl : l.WellSpelled) (hr : r.WellSpelled) :
    (layoutBinary op left right l r).WellSpelled := by
  unfold layoutBinary
  cases h : op.form with
  | logical o => exact ⟨wellSpelled_layoutLogical hl, wellSpelled_layoutLogical hr⟩
  | comparison o => exact ⟨wellSpelled_layoutCompared hl, wellSpelled_layoutCompared hr⟩
  | bitwise o => exact ⟨wellSpelled_unsigned hl, wellSpelled_unsigned hr⟩
  | shift f => exact ⟨word_of_shift h, wellSpelled_unsigned hl, wellSpelled_layoutCount hr⟩
  | arithmetic o => exact ⟨wellSpelled_layoutArithmetic hl, wellSpelled_layoutArithmetic hr⟩

theorem Spelled.wellSpelled : {e : Expr} → e.Spelled → e.layout.WellSpelled
  | number _, h => h
  | name _, h => h
  | call _ _ unit _, h => word_resultWire h unit
  | element _ _ _, ⟨hbase, hindex⟩ => ⟨hbase, wellSpelled_layoutCount (wellSpelled hindex)⟩
  | unary _ operand, h => wellSpelled_layoutUnary h (wellSpelled (e := operand) h)
  | binary _ _ _, ⟨hl, hr⟩ => wellSpelled_layoutBinary (wellSpelled hl) (wellSpelled hr)

end Expr

/-! ## Words for operators -/

namespace Vhdl

theorem operatorWord?_of_underscore {word : String} (h : '_' ∈ word.toList) :
    operatorWord? word = none := by
  have htable : ∀ p ∈ operatorWords, '_' ∉ p.1.toList := by decide
  refine List.lookup_eq_none_iff.2 fun p hp => bne_iff_ne.2 ?_
  intro heq
  apply htable p hp
  rw [← heq, String.toList_ofList]
  exact List.mem_map.2 ⟨'_', h, rfl⟩

@[simp] theorem operatorWord?_unsigned : operatorWord? "unsigned" = none := by decide

@[simp] theorem operatorWord?_to_integer : operatorWord? "to_integer" = none := by decide

@[simp] theorem operatorWord?_to_signed : operatorWord? "to_signed" = none := by decide

@[simp] theorem operatorWord?_to_unsigned : operatorWord? "to_unsigned" = none := by decide

end Vhdl

open Vhdl (operatorWord? operatorWord?_of_underscore)

theorem operatorWord?_resultWire (callee : String) (unit : Option Nat) :
    operatorWord? (resultWire callee unit) = none := by
  apply operatorWord?_of_underscore
  cases unit with
  | none =>
    rw [show resultWire callee none = callee ++ "_result" from rfl, String.toList_append]
    exact List.mem_append_right _ (by decide)
  | some n =>
    rw [show resultWire callee (some n) = "call_" ++ callee ++ "_" ++ toString n ++ "_res" from rfl,
      String.toList_append]
    exact List.mem_append_right _ (by decide)

namespace Expr

theorem plain_of_literal {e : Expr} {n : Int} (h : e.literalValue? = some n) : e.layout.Plain := by
  unfold literalValue? at h
  split at h
  · simp [layout]
  · simp [layout, layoutUnary, layoutNegated]
  · cases h

theorem plain_layoutCount {e : Expr} : (e.layoutCount e.layout).Plain ↔ e.layout.Plain := by
  unfold layoutCount
  cases h : e.literalValue? with
  | none => simp
  | some n => cases n <;> simp [Layout.integer, plain_of_literal h]

theorem plain_layoutUnary {op : UnaryOp} {e : Expr} {a : Layout} :
    (layoutUnary op e a).Plain ↔ a.Plain := by
  cases op with
  | bitNot => simp [layoutUnary]
  | not =>
    unfold layoutUnary layoutInverted
    dsimp only
    split <;> simp
  | neg =>
    unfold layoutUnary layoutNegated
    dsimp only
    split <;> simp

theorem plain_layoutLogical {e : Expr} {a : Layout} : (e.layoutLogical a).Plain ↔ a.Plain := by
  unfold layoutLogical
  split <;> simp

theorem plain_layoutCompared {e : Expr} {a : Layout} : (e.layoutCompared a).Plain ↔ a.Plain := by
  unfold layoutCompared
  split <;> simp

theorem plain_layoutArithmetic {e : Expr} {a : Layout} :
    (e.layoutArithmetic a).Plain ↔ a.Plain := by
  unfold layoutArithmetic
  split <;> simp

theorem operatorWord?_of_shift {op : BinaryOp} {f : String} (h : op.form = .shift f) :
    operatorWord? f = none := by
  cases op <;> cases h <;> decide

theorem plain_layoutBinary {op : BinaryOp} {left right : Expr} :
    (layoutBinary op left right left.layout right.layout).Plain ↔
      left.layout.Plain ∧ right.layout.Plain := by
  unfold layoutBinary
  cases h : op.form with
  | logical o => simp [plain_layoutLogical]
  | comparison o => simp [plain_layoutCompared]
  | bitwise o => simp
  | shift f => simp [operatorWord?_of_shift h, plain_layoutCount]
  | arithmetic o => simp [plain_layoutArithmetic]

/-- The text of an expression has no words for operators as names but those of its variables. -/
theorem plain_layout_iff : (e : Expr) →
    (e.layout.Plain ↔ ∀ n ∈ e.shownNames, operatorWord? n = none)
  | number _ => by simp [layout, shownNames]
  | name _ => by simp [layout, shownNames]
  | call callee _ unit _ => by simp [layout, shownNames, operatorWord?_resultWire]
  | element _ index _ => by
    rw [layout, shownNames, Layout.plain_apply, plain_layoutCount, plain_layout_iff index,
      List.forall_mem_cons]
  | unary _ operand => by
    rw [layout, shownNames, plain_layoutUnary, plain_layout_iff operand]
  | binary _ left right => by
    rw [layout, shownNames, plain_layoutBinary, plain_layout_iff left, plain_layout_iff right,
      List.forall_mem_append]

end Expr

end ClockedC
