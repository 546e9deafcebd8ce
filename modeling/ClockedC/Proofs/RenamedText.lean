import ClockedC.Proofs.OutputPort

/-!
# The text of renamed expressions

The text of an expression shows what each of its scalars has been renamed to. So two renamings that
lead to the same text agree on all scalars of the expression, and an assignment that is written as
the same line in two environments has its scalars held in the same places.

* `Expr.scalars` are the scalars whose names stand in the text of an expression.
* `Tied` says that two texts have as many words, and that a condition holds if the words are equal.
* `Expr.tied_vhdl_rename`: the texts of an expression under two renamings are tied to the agreement
  of the renamings on its scalars.
* `Scheme.lines_assignment`: an assignment is one line, with the words of its target and value.
* `Scheme.name_holder_eq_of_sameLine` draws the conclusion for assignments.
-/

namespace ClockedC

open Scan (Word)

/-! ## Scalars -/

namespace Expr

/-- The scalars whose names stand in the text of an expression. -/
def scalars : Expr → List String
  | number _ | call .. => []
  | name n => [n]
  | element _ index _ => index.scalars
  | unary _ operand => operand.scalars
  | binary _ left right => left.scalars ++ right.scalars

theorem rename_eq_of_scalars {g g' : String → String} :
    ∀ {e : Expr}, (∀ n ∈ e.scalars, g n = g' n) → e.rename g = e.rename g'
  | number _, _ | call .., _ => rfl
  | name n, h => congrArg name (h n (List.mem_singleton_self n))
  | element base _ text, h => congrArg (element base · text) (rename_eq_of_scalars h)
  | unary op _, h => congrArg (unary op) (rename_eq_of_scalars h)
  | binary op _ _, h => by
    obtain ⟨hleft, hright⟩ := List.forall_mem_append.1 h
    rw [rename, rename, rename_eq_of_scalars hleft, rename_eq_of_scalars hright]

/-- There are no scalars in a literal. -/
theorem agree_of_literal (g g' : String → String) {e : Expr} {k : Int}
    (h : e.literalValue? = some k) : ∀ n ∈ e.scalars, g n = g' n := by
  have hnone : e.scalars = [] := by
    unfold literalValue? at h
    split at h
    · rfl
    · rfl
    · cases h
  rw [hnone]
  exact List.forall_mem_nil _

end Expr

/-- The scalars that stand in the line of an assignment. -/
def Assignment.scalars (a : Assignment) : List String :=
  a.target.expr.scalars ++ a.value.scalars

/-! ## Tied texts -/

/-- Two texts have as many words, and these are equal only under a condition. -/
structure Tied (condition : Prop) (a b : String) : Prop where
  length : (textWords a).length = (textWords b).length
  holds : textWords a = textWords b → condition

namespace Tied

variable {p q : Prop} {a b c d : String}

theorem self (hp : p) (a : String) : Tied p a a :=
  ⟨rfl, fun _ => hp⟩

theorem imp (h : Tied p a b) (hpq : p → q) : Tied q a b :=
  ⟨h.length, fun heq => hpq (h.holds heq)⟩

theorem word (ha : Word a.toList) (hb : Word b.toList) : Tied (a = b) a b := by
  constructor
  · rw [textWords_of_word ha, textWords_of_word hb]
    rfl
  · rw [textWords_of_word ha, textWords_of_word hb]
    exact fun h => (List.cons.inj h).1

theorem behind (front : String) (hfront : endsApart front = true) (h : Tied p a b) :
    Tied p (front ++ a) (front ++ b) := by
  constructor
  · rw [textWords_append_of_endsApart _ hfront, textWords_append_of_endsApart _ hfront]
    simp only [List.length_append, h.length]
  · rw [textWords_append_of_endsApart _ hfront, textWords_append_of_endsApart _ hfront]
    exact fun heq => h.holds (List.append_cancel_left heq)

theorem before (back : String) (hback : startsApart back = true) (h : Tied p a b) :
    Tied p (a ++ back) (b ++ back) := by
  constructor
  · rw [textWords_append_of_startsApart _ hback, textWords_append_of_startsApart _ hback]
    simp only [List.length_append, h.length]
  · rw [textWords_append_of_startsApart _ hback, textWords_append_of_startsApart _ hback]
    exact fun heq => h.holds (List.append_cancel_right heq)

/-- The words before and behind the texts are the same. -/
theorem between (front back : String) (hfront : endsApart front = true)
    (hback : startsApart back = true) (h : Tied p a b) :
    Tied p (front ++ a ++ back) (front ++ b ++ back) :=
  before back hback (behind front hfront h)

/-- Two texts with marks between them. As the first ones have as many words, the words of each come
to stand in the same places. -/
theorem separated (mark : String) (hstarts : startsApart mark = true)
    (hends : endsApart mark = true) (h : Tied p a b) (h' : Tied q c d) :
    Tied (p ∧ q) (a ++ mark ++ c) (b ++ mark ++ d) := by
  have hwords (first second : String) : textWords (first ++ mark ++ second) =
      textWords first ++ textWords mark ++ textWords second := by
    rw [textWords_append_of_endsApart _ (endsApart_append first hends),
      textWords_append_of_startsApart _ hstarts]
  constructor
  · rw [hwords, hwords]
    simp only [List.length_append, h.length, h'.length]
  · rw [hwords, hwords]
    intro heq
    have hlength : (textWords a ++ textWords mark).length =
        (textWords b ++ textWords mark).length := by
      simp only [List.length_append, h.length]
    obtain ⟨hfirst, hsecond⟩ := List.append_inj heq hlength
    exact ⟨h.holds (List.append_cancel_right hfirst), h'.holds hsecond⟩

theorem spaced (first op last : String) (hstarts : startsApart first = true)
    (hends : endsApart last = true) (h : Tied p a b) (h' : Tied q c d) :
    Tied (p ∧ q) (a ++ first ++ op ++ last ++ c) (b ++ first ++ op ++ last ++ d) := by
  have htied := separated (first ++ op ++ last)
    (startsApart_append _ (startsApart_append _ hstarts)) (endsApart_append _ hends) h h'
  simpa only [String.append_assoc] using htied

end Tied

/-! ## Operands -/

namespace Expr

/-! How an operand is written does not depend on the names in it. -/

variable (g : String → String) (e : Expr)

theorem isTruthValue_rename : (e.rename g).isTruthValue = e.isTruthValue := by
  cases e with
  | unary op operand => cases op <;> rfl
  | _ => rfl

theorem literalValue?_rename : (e.rename g).literalValue? = e.literalValue? := by
  cases e with
  | unary op operand => cases op <;> cases operand <;> rfl
  | _ => rfl

theorem vhdlCount_rename (text : String) : (e.rename g).vhdlCount text = e.vhdlCount text := by
  rw [vhdlCount, vhdlCount, literalValue?_rename]

theorem vhdlNegated_rename (text : String) :
    (e.rename g).vhdlNegated text = e.vhdlNegated text := by
  cases e <;> rfl

theorem vhdlInverted_rename (text : String) :
    (e.rename g).vhdlInverted text = e.vhdlInverted text := by
  rw [vhdlInverted, vhdlInverted, isTruthValue_rename]

theorem vhdlLogical_rename (text : String) :
    (e.rename g).vhdlLogical text = e.vhdlLogical text := by
  rw [vhdlLogical, vhdlLogical, isTruthValue_rename]

theorem vhdlCompared_rename (text : String) :
    (e.rename g).vhdlCompared text = e.vhdlCompared text := by
  cases e with
  | unary op operand => cases op <;> cases operand <;> rfl
  | _ => rfl

theorem vhdlArithmetic_rename (text : String) :
    (e.rename g).vhdlArithmetic text = e.vhdlArithmetic text := by
  cases e <;> rfl

theorem vhdlUnary_rename (op : UnaryOp) (text : String) :
    vhdlUnary op (e.rename g) text = vhdlUnary op e text := by
  cases op with
  | neg => exact vhdlNegated_rename g e text
  | not => exact vhdlInverted_rename g e text
  | bitNot => rfl

theorem vhdlBinary_rename (op : BinaryOp) (left right : Expr) (l r : String) :
    vhdlBinary op (left.rename g) (right.rename g) l r = vhdlBinary op left right l r := by
  unfold vhdlBinary
  simp only [vhdlCount_rename, vhdlLogical_rename, vhdlCompared_rename, vhdlArithmetic_rename]

end Expr

namespace Tied

variable {p q : Prop} {a b c d : String}

/-- A literal is written as its value, whatever its own text is. -/
theorem vhdlCount {e : Expr} (hliteral : ∀ k, e.literalValue? = some k → p) (h : Tied p a b) :
    Tied p (e.vhdlCount a) (e.vhdlCount b) := by
  unfold Expr.vhdlCount
  cases he : e.literalValue? with
  | some k => exact self (hliteral k he) _
  | none => exact between "to_integer(unsigned(" "))" (by decide) (by decide) h

theorem vhdlNegated (e : Expr) (h : Tied p a b) : Tied p (e.vhdlNegated a) (e.vhdlNegated b) := by
  cases e with
  | number text => exact between "to_signed(-" ", 32)" (by decide) (by decide) h
  | name n => exact between "-unsigned(" ")" (by decide) (by decide) h
  | element base index text => exact between "-unsigned(" ")" (by decide) (by decide) h
  | _ => exact between "0 - (" ")" (by decide) (by decide) h

theorem vhdlInverted (e : Expr) (h : Tied p a b) :
    Tied p (e.vhdlInverted a) (e.vhdlInverted b) := by
  unfold Expr.vhdlInverted
  split
  · exact between "not (" ")" (by decide) (by decide) h
  · exact between "(unsigned(" ") = 0)" (by decide) (by decide) h

theorem vhdlLogical (e : Expr) (h : Tied p a b) : Tied p (e.vhdlLogical a) (e.vhdlLogical b) := by
  unfold Expr.vhdlLogical
  split
  · exact between "(" ")" (by decide) (by decide) h
  · exact between "unsigned(" ") /= 0" (by decide) (by decide) h

theorem vhdlCompared (e : Expr) (h : Tied p a b) :
    Tied p (e.vhdlCompared a) (e.vhdlCompared b) := by
  have hcast : Tied p ("unsigned(" ++ a ++ ")") ("unsigned(" ++ b ++ ")") :=
    between "unsigned(" ")" (by decide) (by decide) h
  cases e with
  | number text => exact between "to_unsigned(" ", 32)" (by decide) (by decide) h
  | unary op operand =>
    cases op with
    | neg =>
      cases operand with
      | number text => exact h
      | _ => exact hcast
    | _ => exact hcast
  | _ => exact hcast

theorem vhdlArithmetic (e : Expr) (h : Tied p a b) :
    Tied p (e.vhdlArithmetic a) (e.vhdlArithmetic b) := by
  cases e with
  | binary op left right => exact between "(" ")" (by decide) (by decide) h
  | _ => exact h

theorem vhdlUnary (op : UnaryOp) (e : Expr) (h : Tied p a b) :
    Tied p (Expr.vhdlUnary op e a) (Expr.vhdlUnary op e b) := by
  cases op with
  | neg => exact h.vhdlNegated e
  | not => exact h.vhdlInverted e
  | bitNot => exact between "not unsigned(" ")" (by decide) (by decide) h

/-- The operands of every operator stand apart from each other. -/
theorem vhdlBinary (op : BinaryOp) (left right : Expr)
    (hliteral : ∀ k, right.literalValue? = some k → q) (h : Tied p a b) (h' : Tied q c d) :
    Tied (p ∧ q) (Expr.vhdlBinary op left right a c) (Expr.vhdlBinary op left right b d) := by
  have hlogical (mark : String) (hstarts : startsApart mark = true)
      (hends : endsApart mark = true) :
      Tied (p ∧ q) ("(" ++ left.vhdlLogical a ++ mark ++ right.vhdlLogical c ++ ")")
        ("(" ++ left.vhdlLogical b ++ mark ++ right.vhdlLogical d ++ ")") :=
    before ")" (by decide)
      (separated mark hstarts hends (behind "(" (by decide) (h.vhdlLogical left))
        (h'.vhdlLogical right))
  have hcompared : Tied (p ∧ q)
      (left.vhdlCompared a ++ " " ++ op.vhdl ++ " " ++ right.vhdlCompared c)
      (left.vhdlCompared b ++ " " ++ op.vhdl ++ " " ++ right.vhdlCompared d) :=
    spaced " " op.vhdl " " (by decide) (by decide) (h.vhdlCompared left) (h'.vhdlCompared right)
  have harithmetic : Tied (p ∧ q)
      (left.vhdlArithmetic a ++ " " ++ op.vhdl ++ " " ++ right.vhdlArithmetic c)
      (left.vhdlArithmetic b ++ " " ++ op.vhdl ++ " " ++ right.vhdlArithmetic d) :=
    spaced " " op.vhdl " " (by decide) (by decide) (h.vhdlArithmetic left)
      (h'.vhdlArithmetic right)
  have hbitwise : Tied (p ∧ q)
      ("unsigned(" ++ a ++ ") " ++ op.vhdl ++ " unsigned(" ++ c ++ ")")
      ("unsigned(" ++ b ++ ") " ++ op.vhdl ++ " unsigned(" ++ d ++ ")") :=
    before ")" (by decide) (spaced ") " op.vhdl " unsigned(" (by decide) (by decide)
      (behind "unsigned(" (by decide) h) h')
  have hshift (front : String) (hfront : endsApart front = true) : Tied (p ∧ q)
      (front ++ a ++ "), " ++ right.vhdlCount c ++ ")")
      (front ++ b ++ "), " ++ right.vhdlCount d ++ ")") :=
    before ")" (by decide) (separated "), " (by decide) (by decide) (behind front hfront h)
      (h'.vhdlCount hliteral))
  cases op with
  | and => exact hlogical " and " (by decide) (by decide)
  | or => exact hlogical " or " (by decide) (by decide)
  | eq | ne | lt | le | gt | ge => exact hcompared
  | bitAnd | bitOr | bitXor => exact hbitwise
  | shiftLeft => exact hshift "shift_left(unsigned(" (by decide)
  | shiftRight => exact hshift "shift_right(unsigned(" (by decide)
  | add | sub | mul | div | mod => exact harithmetic

end Tied

/-! ## Expressions -/

/-- **Renamed scalars show.** Two renamings make the same text of an expression only if they agree
on its scalars. -/
theorem Expr.tied_vhdl_rename {g g' : String → String}
    (hg : ∀ n, Word n.toList → Word (g n).toList) (hg' : ∀ n, Word n.toList → Word (g' n).toList) :
    ∀ {e : Expr}, e.Spelled →
      Tied (∀ n ∈ e.scalars, g n = g' n) (e.rename g).vhdl (e.rename g').vhdl
  | number _, _ | call .., _ => Tied.self (List.forall_mem_nil _) _
  | name n, h => by
    refine (Tied.word (hg n h) (hg' n h)).imp fun heq m hm => ?_
    rw [List.mem_singleton.1 hm]
    exact heq
  | element base index text, ⟨_, hindex⟩ => by
    have hcount := (tied_vhdl_rename hg hg' hindex).vhdlCount (fun _ => agree_of_literal g g')
    rw [rename, rename, vhdl, vhdl, vhdlCount_rename, vhdlCount_rename]
    exact Tied.between (base ++ "(") ")" (endsApart_append base (by decide)) (by decide) hcount
  | unary op operand, h => by
    rw [rename, rename, vhdl, vhdl, vhdlUnary_rename, vhdlUnary_rename]
    exact (tied_vhdl_rename (e := operand) hg hg' h).vhdlUnary op operand
  | binary op left right, ⟨hleft, hright⟩ => by
    rw [rename, rename, vhdl, vhdl, vhdlBinary_rename, vhdlBinary_rename]
    have hboth := (tied_vhdl_rename hg hg' hleft).vhdlBinary op left right
      (fun _ => agree_of_literal g g') (tied_vhdl_rename hg hg' hright)
    exact hboth.imp List.forall_mem_append.2

/-! ## Assignments -/

/-- Two statements are one line each, and the lines are the same apart from their indentation. -/
def Sequential.SameLine (x y : Sequential) : Prop :=
  ∃ text, ∀ depth, x.lines depth = [indented depth text] ∧ y.lines depth = [indented depth text]

theorem textWords_assignment {arrow : String} (hstarts : startsApart arrow = true)
    (hends : endsApart arrow = true) (hwords : textWords arrow = []) (a b : String) :
    textWords (a ++ arrow ++ b ++ ";") = textWords a ++ textWords b := by
  have hlast : textWords ";" = [] := by decide
  rw [textWords_append_of_startsApart _ (by decide),
    textWords_append_of_endsApart _ (endsApart_append a hends),
    textWords_append_of_startsApart _ hstarts, hwords, hlast, List.append_nil, List.append_nil]

theorem Assignment.spelled_of_wellSpelled {a : Assignment} (h : a.move.WellSpelled) :
    a.target.expr.Spelled ∧ a.value.Spelled := by
  obtain ⟨hbase, hexpressions⟩ := h
  have hname : Word a.target.base.toList := hbase _ rfl
  have hvalue := hexpressions a.value (List.mem_append_right _ (List.mem_singleton_self _))
  refine ⟨?_, hvalue.spelled⟩
  cases htarget : a.target with
  | name n =>
    rw [htarget] at hname
    exact hname
  | element base index text =>
    rw [htarget] at hname
    have hindex : index ∈ a.move.expressions := by
      rw [Assignment.move, Move.expressions, htarget]
      exact List.mem_append_left _ (List.mem_singleton_self _)
    exact ⟨hname, (hexpressions index hindex).spelled⟩

namespace Scheme

variable {σ : Scheme} {env env' : Env} {a : Assignment}

/-- An assignment is one line. Its words are those of its two sides. -/
theorem lines_assignment (σ : Scheme) (env : Env) (a : Assignment) :
    ∃ text, (∀ depth, (σ.assignment env a).lines depth = [indented depth text]) ∧
      textWords text =
        textWords (σ.expr env a.target.expr).vhdl ++ textWords (σ.expr env a.value).vhdl := by
  have hvariable := textWords_assignment (by decide : startsApart " := " = true) (by decide)
    (by decide)
  have hsignal := textWords_assignment (by decide : startsApart " <= " = true) (by decide)
    (by decide)
  unfold assignment
  cases a.target with
  | name n =>
    have hname : (σ.expr env (Target.name n).expr).vhdl = (σ.holder env n).name := rfl
    rw [hname]
    dsimp only
    cases σ.holder env n with
    | var m => exact ⟨_, fun _ => rfl, hvariable m _⟩
    | signal m => exact ⟨_, fun _ => rfl, hsignal m _⟩
  | element base index text =>
    exact ⟨_, fun _ => rfl, hsignal (Target.element base (σ.expr env index) text).vhdl _⟩

theorem sameLine_of_agree (h : ∀ n ∈ a.scalars, σ.holder env n = σ.holder env' n) :
    Sequential.SameLine (σ.assignment env a) (σ.assignment env' a) := by
  have hnames (n : String) (hn : n ∈ a.scalars) :
      (σ.holder env n).name = (σ.holder env' n).name := congrArg Holder.name (h n hn)
  have hvalue : σ.expr env a.value = σ.expr env' a.value :=
    Expr.rename_eq_of_scalars fun n hn => hnames n (List.mem_append_right _ hn)
  have heq : σ.assignment env a = σ.assignment env' a := by
    unfold assignment
    unfold Assignment.scalars at h hnames
    rw [hvalue]
    cases htarget : a.target with
    | name n =>
      rw [htarget] at h
      exact congrArg (Holder.set _) (h n List.mem_cons_self)
    | element base index text =>
      rw [htarget] at hnames
      have hindex : σ.expr env index = σ.expr env' index :=
        Expr.rename_eq_of_scalars fun n hn => hnames n (List.mem_append_left _ hn)
      dsimp only
      rw [hindex]
  obtain ⟨text, htext, -⟩ := σ.lines_assignment env' a
  rw [heq]
  exact ⟨text, fun depth => ⟨htext depth, htext depth⟩⟩

/-- Where an assignment is written as the same line in two environments, its scalars are held under
the same names. -/
theorem name_holder_eq_of_sameLine
    (hholder : ∀ n, Word n.toList → Word (σ.holder env n).name.toList)
    (hholder' : ∀ n, Word n.toList → Word (σ.holder env' n).name.toList)
    (hspelled : a.move.WellSpelled)
    (h : Sequential.SameLine (σ.assignment env a) (σ.assignment env' a)) :
    ∀ n ∈ a.scalars, (σ.holder env n).name = (σ.holder env' n).name := by
  obtain ⟨text, htext⟩ := h
  obtain ⟨line, hline, hwords⟩ := σ.lines_assignment env a
  obtain ⟨line', hline', hwords'⟩ := σ.lines_assignment env' a
  have heq : line = line' := by
    have hfirst := (hline 0).symm.trans (htext 0).1
    have hsecond := (hline' 0).symm.trans (htext 0).2
    have hlines := (List.cons.inj (hfirst.trans hsecond.symm)).1
    simpa only [indented, Nat.mul_zero, List.replicate_zero, String.append_right_inj] using hlines
  obtain ⟨htarget, hvalue⟩ := Assignment.spelled_of_wellSpelled hspelled
  have htargets := Expr.tied_vhdl_rename hholder hholder' htarget
  have hvalues := Expr.tied_vhdl_rename hholder hholder' hvalue
  rw [← heq, hwords] at hwords'
  obtain ⟨hfront, hback⟩ := List.append_inj hwords' htargets.length
  exact List.forall_mem_append.2 ⟨htargets.holds hfront, hvalues.holds hback⟩

end Scheme

end ClockedC
