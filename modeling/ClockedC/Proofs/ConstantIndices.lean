import ClockedC.Compile
import ClockedC.Proofs.Recovery

/-!
# Constant indices

An index that is a constant is written into the design as a number. Whether it lies in its array is
looked at only once, when the index is read: there an index counts as a literal if it is written as
a bare numeral with at most a minus sign, and it is held against the arrays declared so far.

* `Block.remarks` lists the declarations and the accesses of a body in the order of the tokens.
* `Access.vhdl_eq_iff`: an access is written with the number `k` exactly if its index is the
  constant `k`.
* `Function.Site.inRange_of_checked`: in a program that is read, an index that is written as a
  literal behind a declaration of its array lies in the array.
* `constant_index_out_of_range`: other constant indices may lie outside of their arrays.
-/

namespace ClockedC

/-- An access to an element of an array, with the text that its index was written as. -/
structure Access where
  base : String
  index : Expr
  text : String

namespace Access

/-- The element that is accessed. -/
def expr (a : Access) : Expr :=
  .element a.base a.index a.text

/-- The value of an index that was written as a literal. -/
def written? (a : Access) : Option Int :=
  a.index.writtenLiteral? a.text

end Access

/-- What is said about arrays at one place of a function. -/
inductive Remark where
  | declared (declaration : Declaration)
  | accessed (access : Access)

/-! ## Remarks in the order of the tokens -/

mutual

/-- The accesses of an expression, each before those in its index. -/
def Expr.accesses : Expr → List Access
  | .number _ | .name _ => []
  | .element base index text => ⟨base, index, text⟩ :: index.accesses
  | .call _ args _ _ => Expr.accessesOfList args
  | .unary _ operand => operand.accesses
  | .binary _ left right => left.accesses ++ right.accesses

/-- The accesses of a list of expressions. -/
def Expr.accessesOfList : List Expr → List Access
  | [] => []
  | e :: es => e.accesses ++ Expr.accessesOfList es

end

def Expr.remarks (e : Expr) : List Remark :=
  e.accesses.map .accessed

/-- A name is declared before the expression of its initial value is read. -/
def Declaration.remarks (d : Declaration) : List Remark :=
  .declared d :: d.expressions.flatMap Expr.remarks

/-- An element that is written to is accessed as one that is read. -/
def Target.remarks : Target → List Remark
  | .name _ => []
  | .element base index text => (Expr.element base index text).remarks

def Assignment.remarks (a : Assignment) : List Remark :=
  a.target.remarks ++ a.value.remarks

def ForStart.remarks : ForStart → List Remark
  | .declare d => d.remarks
  | .assign a => a.remarks

mutual

/-- The remarks of a statement. The increment of a `for` loop stands before its body. -/
def Stmt.remarks : Stmt → List Remark
  | .declare d => d.remarks
  | .assign a => a.remarks
  | .ret value _ => (value.map Expr.remarks).getD []
  | .branch condition body otherwise _ =>
    condition.remarks ++ (Block.remarks body ++ otherwise.remarks)
  | .whileLoop condition body _ => condition.remarks ++ Block.remarks body
  | .forLoop init condition body increment _ =>
    (init.map ForStart.remarks).getD [] ++ (condition.remarks ++
      ((increment.map Assignment.remarks).getD [] ++ Block.remarks body))
  | .jump .. => []

/-- The remarks of an alternative. -/
def Alternative.remarks : Alternative → List Remark
  | .none => []
  | .body body => Block.remarks body
  | .branch condition body otherwise _ =>
    condition.remarks ++ (Block.remarks body ++ otherwise.remarks)

/-- The remarks of a body. -/
def Block.remarks : List Stmt → List Remark
  | [] => []
  | s :: ss => s.remarks ++ Block.remarks ss

end

/-! ## What the parser makes of a remark -/

/-- The shape that a declaration gives to its name. -/
def Form.shape : Form → Shape
  | .scalar _ => .scalar
  | .array size _ => .array size

/-- The parser takes note of declarations, and of accesses whose index is written as a literal. -/
def Remark.mention? : Remark → Option Mention
  | .declared d => some (.declared d.name d.form.shape)
  | .accessed a => a.written?.map (.accessed a.base ·)

mutual

theorem Expr.literalAccesses_eq : ∀ e : Expr,
    e.literalAccesses = e.accesses.filterMap fun a => a.written?.map (a.base, ·)
  | .number _ | .name _ => rfl
  | .element base index text => by
    rw [literalAccesses, accesses, index.literalAccesses_eq, List.filterMap_cons]
    show ((index.writtenLiteral? text).map (base, ·)).toList ++ _ = _
    dsimp only [Access.written?]
    cases index.writtenLiteral? text <;> rfl
  | .call _ args _ _ => Expr.literalAccessesOfList_eq args
  | .unary _ operand => operand.literalAccesses_eq
  | .binary _ left right => by
    rw [literalAccesses, accesses, left.literalAccesses_eq, right.literalAccesses_eq,
      List.filterMap_append]

theorem Expr.literalAccessesOfList_eq : ∀ es : List Expr,
    Expr.literalAccessesOfList es =
      (Expr.accessesOfList es).filterMap fun a => a.written?.map (a.base, ·)
  | [] => rfl
  | e :: es => by
    rw [literalAccessesOfList, accessesOfList, e.literalAccesses_eq,
      Expr.literalAccessesOfList_eq es, List.filterMap_append]

end

theorem Expr.mentions_eq (e : Expr) : e.mentions = e.remarks.filterMap Remark.mention? := by
  rw [mentions, remarks, e.literalAccesses_eq, List.map_filterMap, List.filterMap_map]
  congr 1
  funext a
  exact Option.map_map ..

theorem Declaration.mentions_eq (d : Declaration) :
    d.mentions = d.remarks.filterMap Remark.mention? := by
  obtain ⟨name, type, form, p⟩ := d
  rcases form with (_ | e) | _
  · rfl
  · show .declared name .scalar :: e.mentions =
      .declared name .scalar :: (e.remarks ++ []).filterMap Remark.mention?
    rw [List.append_nil, e.mentions_eq]
  · rfl

theorem Assignment.mentions_eq (a : Assignment) :
    a.mentions = a.remarks.filterMap Remark.mention? := by
  rw [mentions, remarks, List.filterMap_append, a.value.mentions_eq]
  congr 1
  cases a.target with
  | name n => rfl
  | element base index text => exact Expr.mentions_eq _

theorem ForStart.mentions_eq (s : ForStart) :
    s.mentions = s.remarks.filterMap Remark.mention? := by
  cases s with
  | declare d => exact d.mentions_eq
  | assign a => exact a.mentions_eq

/-- What may be absent is gathered as what is there. -/
theorem filterMap_getD_map {α β γ : Type} (f : β → Option γ) (g : α → List β) (g' : α → List γ)
    (h : ∀ a, g' a = (g a).filterMap f) (o : Option α) :
    (o.map g').getD [] = ((o.map g).getD []).filterMap f := by
  cases o with
  | none => rfl
  | some a => exact h a

mutual

theorem Stmt.mentions_eq : ∀ s : Stmt, s.mentions = s.remarks.filterMap Remark.mention?
  | .declare d => d.mentions_eq
  | .assign a => a.mentions_eq
  | .ret value _ => filterMap_getD_map _ _ _ Expr.mentions_eq value
  | .branch condition body otherwise _ => by
    rw [Stmt.mentions, Stmt.remarks, List.filterMap_append, List.filterMap_append,
      condition.mentions_eq, Block.mentions_eq body, otherwise.mentions_eq]
  | .whileLoop condition body _ => by
    rw [Stmt.mentions, Stmt.remarks, List.filterMap_append, condition.mentions_eq,
      Block.mentions_eq body]
  | .forLoop init condition body increment _ => by
    rw [Stmt.mentions, Stmt.remarks, List.filterMap_append, List.filterMap_append,
      List.filterMap_append, filterMap_getD_map _ _ _ ForStart.mentions_eq, condition.mentions_eq,
      filterMap_getD_map _ _ _ Assignment.mentions_eq, Block.mentions_eq body]
  | .jump .. => rfl

theorem Alternative.mentions_eq :
    ∀ a : Alternative, a.mentions = a.remarks.filterMap Remark.mention?
  | .none => rfl
  | .body body => Block.mentions_eq body
  | .branch condition body otherwise _ => by
    rw [Alternative.mentions, Alternative.remarks, List.filterMap_append, List.filterMap_append,
      condition.mentions_eq, Block.mentions_eq body, otherwise.mentions_eq]

theorem Block.mentions_eq :
    ∀ ss : List Stmt, Block.mentions ss = (Block.remarks ss).filterMap Remark.mention?
  | [] => rfl
  | s :: ss => by
    rw [Block.mentions, Block.remarks, List.filterMap_append, s.mentions_eq, Block.mentions_eq ss]

end

/-! ## Declarations among the remarks -/

def Remark.declaration? : Remark → Option Declaration
  | .declared d => some d
  | .accessed _ => none

theorem Expr.filterMap_declaration?_remarks (e : Expr) :
    [] = e.remarks.filterMap Remark.declaration? := by
  rw [remarks, List.filterMap_map]
  exact (List.filterMap_eq_nil_iff.2 fun _ _ => rfl).symm

theorem Declaration.filterMap_declaration?_remarks (d : Declaration) :
    [d] = d.remarks.filterMap Remark.declaration? := by
  obtain ⟨name, type, form, p⟩ := d
  rcases form with (_ | e) | _
  · rfl
  · show [_] = _ :: (e.remarks ++ []).filterMap Remark.declaration?
    rw [List.append_nil, ← e.filterMap_declaration?_remarks]
  · rfl

theorem Assignment.filterMap_declaration?_remarks (a : Assignment) :
    [] = a.remarks.filterMap Remark.declaration? := by
  rw [remarks, List.filterMap_append, ← a.value.filterMap_declaration?_remarks, List.append_nil]
  cases a.target with
  | name n => rfl
  | element base index text => exact Expr.filterMap_declaration?_remarks _

theorem ForStart.declarations_eq (s : ForStart) :
    s.declarations = s.remarks.filterMap Remark.declaration? := by
  cases s with
  | declare d => exact d.filterMap_declaration?_remarks
  | assign a => exact a.filterMap_declaration?_remarks

theorem getD_map_nil {α β : Type} (o : Option α) : (o.map fun _ => ([] : List β)).getD [] = [] := by
  cases o <;> rfl

mutual

theorem Stmt.declarations_eq :
    ∀ s : Stmt, s.declarations = s.remarks.filterMap Remark.declaration?
  | .declare d => d.filterMap_declaration?_remarks
  | .assign a => a.filterMap_declaration?_remarks
  | .ret value _ => by
    rw [Stmt.declarations, Stmt.remarks,
      ← filterMap_getD_map _ _ _ Expr.filterMap_declaration?_remarks, getD_map_nil]
  | .branch condition body otherwise _ => by
    rw [Stmt.declarations, Stmt.remarks, List.filterMap_append, List.filterMap_append,
      ← condition.filterMap_declaration?_remarks, List.nil_append, Block.declarations_eq body,
      otherwise.declarations_eq]
  | .whileLoop condition body _ => by
    rw [Stmt.declarations, Stmt.remarks, List.filterMap_append,
      ← condition.filterMap_declaration?_remarks, List.nil_append, Block.declarations_eq body]
  | .forLoop init condition body increment _ => by
    rw [Stmt.declarations, Stmt.remarks, List.filterMap_append, List.filterMap_append,
      List.filterMap_append, filterMap_getD_map _ _ _ ForStart.declarations_eq,
      ← condition.filterMap_declaration?_remarks,
      ← filterMap_getD_map _ _ _ Assignment.filterMap_declaration?_remarks, getD_map_nil,
      List.nil_append, List.nil_append, Block.declarations_eq body]
  | .jump .. => rfl

theorem Alternative.declarations_eq :
    ∀ a : Alternative, a.declarations = a.remarks.filterMap Remark.declaration?
  | .none => rfl
  | .body body => Block.declarations_eq body
  | .branch condition body otherwise _ => by
    rw [Alternative.declarations, Alternative.remarks, List.filterMap_append,
      List.filterMap_append, ← condition.filterMap_declaration?_remarks, List.nil_append,
      Block.declarations_eq body, otherwise.declarations_eq]

theorem Block.declarations_eq :
    ∀ ss : List Stmt, Block.declarations ss = (Block.remarks ss).filterMap Remark.declaration?
  | [] => rfl
  | s :: ss => by
    rw [Block.declarations, Block.remarks, List.filterMap_append, s.declarations_eq,
      Block.declarations_eq ss]

end

/-! ## Unit numbers -/

theorem Expr.writtenLiteral?_numberCalls (text : String) (e : Expr) (next : Nat) :
    (e.numberCalls next).1.writtenLiteral? text = e.writtenLiteral? text := by
  cases e with
  | number | name | element | binary => rfl
  | call _ _ unit _ => cases unit <;> rfl
  | unary op operand =>
    cases op with
    | neg =>
      cases operand with
      | call _ _ unit _ => cases unit <;> rfl
      | _ => rfl
    | not | bitNot => rfl

mutual

theorem Expr.literalAccesses_numberCalls : ∀ (e : Expr) (next : Nat),
    (e.numberCalls next).1.literalAccesses = e.literalAccesses
  | .number _, _ | .name _, _ => rfl
  | .element base index text, next => by
    show (((index.numberCalls next).1.writtenLiteral? text).map (base, ·)).toList ++
      (index.numberCalls next).1.literalAccesses = _
    rw [index.writtenLiteral?_numberCalls, index.literalAccesses_numberCalls]
    rfl
  | .call _ args (some _) _, next => Expr.literalAccessesOfList_numberCalls args next
  | .call _ args none _, next => Expr.literalAccessesOfList_numberCalls args (next + 1)
  | .unary _ operand, next => operand.literalAccesses_numberCalls next
  | .binary _ left right, next => by
    show (left.numberCalls next).1.literalAccesses ++
      (right.numberCalls (left.numberCalls next).2).1.literalAccesses = _
    rw [left.literalAccesses_numberCalls, right.literalAccesses_numberCalls]
    rfl

theorem Expr.literalAccessesOfList_numberCalls : ∀ (es : List Expr) (next : Nat),
    Expr.literalAccessesOfList (Expr.numberCallsOfList next es).1 = Expr.literalAccessesOfList es
  | [], _ => rfl
  | e :: es, next => by
    show (e.numberCalls next).1.literalAccesses ++
      Expr.literalAccessesOfList (Expr.numberCallsOfList (e.numberCalls next).2 es).1 = _
    rw [e.literalAccesses_numberCalls, Expr.literalAccessesOfList_numberCalls es]
    rfl

end

theorem Expr.mentions_numberCalls (e : Expr) (next : Nat) :
    (e.numberCalls next).1.mentions = e.mentions := by
  rw [mentions, mentions, e.literalAccesses_numberCalls]

theorem Declaration.mentions_numberCalls (d : Declaration) (next : Nat) :
    (d.numberCalls next).1.mentions = d.mentions := by
  obtain ⟨name, type, form, p⟩ := d
  rcases form with (_ | e) | _
  · rfl
  · exact congrArg (.declared name .scalar :: ·) (e.mentions_numberCalls next)
  · rfl

theorem Target.mentions_numberCalls (t : Target) (next : Nat) :
    (t.numberCalls next).1.mentions = t.mentions := by
  cases t with
  | name n => rfl
  | element base index text => exact (Expr.element base index text).mentions_numberCalls next

theorem Assignment.mentions_numberCalls (a : Assignment) (next : Nat) :
    (a.numberCalls next).1.mentions = a.mentions := by
  show (a.target.numberCalls next).1.mentions ++
    (a.value.numberCalls (a.target.numberCalls next).2).1.mentions = _
  rw [a.target.mentions_numberCalls, a.value.mentions_numberCalls]
  rfl

theorem ForStart.mentions_numberCalls (s : ForStart) (next : Nat) :
    (s.numberCalls next).1.mentions = s.mentions := by
  cases s with
  | declare d => exact d.mentions_numberCalls next
  | assign a => exact a.mentions_numberCalls next

theorem mentions_numberCallsOfOption {α : Type} {number : Nat → α → α × Nat}
    {mentions : α → List Mention} (h : ∀ a next, mentions (number next a).1 = mentions a)
    (o : Option α) (next : Nat) :
    ((numberCallsOfOption number next o).1.map mentions).getD [] = (o.map mentions).getD [] := by
  cases o with
  | none => rfl
  | some a => exact h a next

mutual

theorem Stmt.mentions_numberCalls : ∀ (s : Stmt) (next : Nat),
    (s.numberCalls next).1.mentions = s.mentions
  | .declare d, next => d.mentions_numberCalls next
  | .assign a, next => a.mentions_numberCalls next
  | .ret value _, next => mentions_numberCallsOfOption Expr.mentions_numberCalls value next
  | .branch condition body otherwise _, next => by
    simp only [Stmt.numberCalls, Stmt.mentions, condition.mentions_numberCalls,
      Block.mentions_numberCalls body, otherwise.mentions_numberCalls]
  | .whileLoop condition body _, next => by
    simp only [Stmt.numberCalls, Stmt.mentions, condition.mentions_numberCalls,
      Block.mentions_numberCalls body]
  | .forLoop init condition body increment _, next => by
    simp only [Stmt.numberCalls, Stmt.mentions, condition.mentions_numberCalls,
      mentions_numberCallsOfOption ForStart.mentions_numberCalls,
      mentions_numberCallsOfOption Assignment.mentions_numberCalls,
      Block.mentions_numberCalls body]
  | .jump .., _ => rfl

theorem Alternative.mentions_numberCalls : ∀ (a : Alternative) (next : Nat),
    (a.numberCalls next).1.mentions = a.mentions
  | .none, _ => rfl
  | .body body, next => Block.mentions_numberCalls body next
  | .branch condition body otherwise _, next => by
    simp only [Alternative.numberCalls, Alternative.mentions, condition.mentions_numberCalls,
      Block.mentions_numberCalls body, otherwise.mentions_numberCalls]

theorem Block.mentions_numberCalls : ∀ (ss : List Stmt) (next : Nat),
    Block.mentions (Block.numberCalls next ss).1 = Block.mentions ss
  | [], _ => rfl
  | s :: ss, next => by
    simp only [Block.numberCalls, Block.mentions, s.mentions_numberCalls,
      Block.mentions_numberCalls ss]

end

theorem Function.mentions_numberCalls (f : Function) : f.numberCalls.1.mentions = f.mentions :=
  congrArg (f.params.map (fun p => Mention.declared p.name .scalar) ++ ·)
    (Block.mentions_numberCalls f.body f.firstFreeUnit)

theorem Program.outcome_prepare_eq_ok {source : String} {program : Program} :
    (Program.prepare source).outcome = .ok program ↔
      ∃ p, (Program.ofSource source).outcome = .ok p ∧ p.numberCalls = program := by
  constructor
  · intro h
    obtain ⟨p, hp, hrest⟩ := Logged.outcome_bind_eq_ok.1 h
    obtain ⟨u, -, heq⟩ := Logged.outcome_bind_eq_ok.1 hrest
    cases heq
    exact ⟨p, hp, rfl⟩
  · rintro ⟨p, hp, rfl⟩
    exact Logged.outcome_bind_eq_ok.2 ⟨p, hp, rfl⟩

/-- Where a program is read and its calls are numbered, each mention agrees with those before it. -/
theorem Program.pairwise_agrees_of_prepare {source : String} {program : Program} {f : Function}
    (h : (Program.prepare source).outcome = .ok program) (hf : f ∈ program.functions) :
    f.mentions.Pairwise Mention.Agrees := by
  obtain ⟨p, hp, rfl⟩ := Program.outcome_prepare_eq_ok.1 h
  obtain ⟨g, hg, rfl⟩ := List.mem_map.1 hf
  rw [g.mentions_numberCalls]
  exact (Program.checked_of_ofSource hp g hg).agree

/-! ## The text of an access -/

/-- The text of an integer is that of its amount, with a minus sign where it is negative. -/
theorem toList_toString_int (k : Int) :
    (toString k).toList = (if k < 0 then ['-'] else []) ++ Nat.toDigits 10 k.natAbs := by
  cases k with
  | ofNat n =>
    have hn : ¬ Int.ofNat n < 0 := Int.not_lt.2 (Int.natCast_nonneg n)
    show n.repr.toList = _
    rw [Nat.toList_repr, if_neg hn]
    rfl
  | negSucc n =>
    show ("-" ++ (n + 1).repr).toList = _
    rw [String.toList_append, Nat.toList_repr, if_pos (by omega)]
    rfl

theorem ne_minus_of_mem_toDigits {n : Nat} {c : Char} (h : c ∈ Nat.toDigits 10 n) : c ≠ '-' := by
  rintro rfl
  have hdigit := Nat.isDigit_of_mem_toDigits (by decide) (by decide) h
  exact absurd hdigit (by decide)

theorem toString_int_inj {j k : Int} (h : toString j = toString k) : j = k := by
  have hlist := congrArg String.toList h
  rw [toList_toString_int, toList_toString_int] at hlist
  have hsame (hdigits : Nat.toDigits 10 j.natAbs = Nat.toDigits 10 k.natAbs) :
      j.natAbs = k.natAbs := by
    have hvalue := congrArg (Nat.ofDigitChars 10 · 0) hdigits
    simpa only [Nat.ofDigitChars_toDigits (b := 10) (by decide) (by decide)] using hvalue
  have hminus (n : Nat) (cs : List Char) : '-' :: cs ≠ Nat.toDigits 10 n := by
    intro heq
    have hmem : '-' ∈ Nat.toDigits 10 n := by
      rw [← heq]
      exact List.mem_cons_self
    exact ne_minus_of_mem_toDigits hmem rfl
  by_cases hj : j < 0 <;> by_cases hk : k < 0
  · rw [if_pos hj, if_pos hk] at hlist
    have habs := hsame (List.append_cancel_left hlist)
    omega
  · rw [if_pos hj, if_neg hk] at hlist
    exact absurd hlist (hminus _ _)
  · rw [if_neg hj, if_pos hk] at hlist
    exact absurd hlist.symm (hminus _ _)
  · rw [if_neg hj, if_neg hk] at hlist
    have habs := hsame (List.append_cancel_left hlist)
    omega

/-- The text of an index that is no constant begins with a letter. -/
theorem Expr.vhdlCount_eq_iff (e : Expr) (text : String) (k : Int) :
    e.vhdlCount text = toString k ↔ e.literalValue? = some k := by
  rw [vhdlCount]
  cases e.literalValue? with
  | some n =>
    rw [Option.some.injEq]
    exact ⟨toString_int_inj, congrArg toString⟩
  | none =>
    have hne : s!"to_integer(unsigned({text}))" ≠ toString k := by
      intro h
      have hmem : 't' ∈ (toString k).toList := by
        rw [← h, String.toList_append, String.toList_append, List.append_assoc]
        exact List.mem_append_left _ (by decide)
      rw [toList_toString_int] at hmem
      rcases List.mem_append.1 hmem with hsign | hdigits
      · split at hsign <;> simp at hsign
      · have hdigit := Nat.isDigit_of_mem_toDigits (by decide) (by decide) hdigits
        exact absurd hdigit (by decide)
    exact ⟨fun h => absurd h hne, fun h => by cases h⟩

/-- An access is written with a number exactly if its index is that constant. -/
theorem Access.vhdl_eq_iff (a : Access) (k : Int) :
    a.expr.vhdl = s!"{a.base}({k})" ↔ a.index.literalValue? = some k := by
  rw [← a.index.vhdlCount_eq_iff a.index.vhdl]
  show s!"{a.base}({a.index.vhdlCount a.index.vhdl})" = _ ↔ _
  simp only [String.append_right_inj, String.append_left_inj]
  rfl

/-! ## Indices in their arrays -/

namespace Function

/-- The function declares an array of `size` elements by a name. -/
def DeclaresArray (f : Function) (name : String) (size : Nat) : Prop :=
  ∃ d ∈ f.declarations, d.name = name ∧ ∃ init, d.form = .array size init

/-- An access in the body of a function, with what is remarked before and after it. -/
structure Site (f : Function) where
  before : List Remark
  access : Access
  after : List Remark
  split : Block.remarks f.body = before ++ .accessed access :: after

namespace Site

variable {f : Function}

/-- Where the access is written with a number into the design, the number is an index of the
array. -/
def InRange (s : f.Site) : Prop :=
  ∀ k : Int, s.access.expr.vhdl = s!"{s.access.base}({k})" →
    ∀ size, f.DeclaresArray s.access.base size → 0 ≤ k ∧ k < size

/-- The index is written as a literal, and the array has been declared before. -/
def Checked (s : f.Site) : Prop :=
  s.access.written?.isSome = true ∧
    ∃ d, .declared d ∈ s.before ∧ d.name = s.access.base ∧ d.isArray = true

end Site

theorem mention_of_mem_declarations {f : Function} {d : Declaration} (h : d ∈ f.declarations) :
    Mention.declared d.name d.form.shape ∈ Block.mentions f.body := by
  rw [declarations, Block.declarations_eq] at h
  obtain ⟨r, hr, hrd⟩ := List.mem_filterMap.1 h
  cases r with
  | accessed a => cases hrd
  | declared d' =>
    cases hrd
    rw [Block.mentions_eq]
    exact List.mem_filterMap.2 ⟨_, hr, rfl⟩

theorem mention_of_declaresArray {f : Function} {name : String} {size : Nat}
    (h : f.DeclaresArray name size) :
    Mention.declared name (.array size) ∈ Block.mentions f.body := by
  obtain ⟨d, hd, rfl, init, hform⟩ := h
  have hmention := mention_of_mem_declarations hd
  rw [hform] at hmention
  exact hmention

end Function

/-- Mentions that agree with all earlier ones give each name one shape. -/
theorem Mention.shape_unique {ms : List Mention} (h : ms.Pairwise Mention.Agrees) {name : String}
    {shape shape' : Shape} (hm : .declared name shape ∈ ms) (hm' : .declared name shape' ∈ ms) :
    shape = shape' := by
  induction ms with
  | nil => cases hm
  | cons m ms ih =>
    obtain ⟨hfirst, hothers⟩ := List.pairwise_cons.1 h
    rcases List.mem_cons.1 hm with rfl | hlater <;> rcases List.mem_cons.1 hm' with heq | hlater'
    · cases heq
      rfl
    · exact hfirst _ hlater' rfl
    · subst heq
      exact (hfirst _ hlater rfl).symm
    · exact ih hothers hlater hlater'

theorem Expr.literalValue?_of_writtenLiteral? {text : String} {e : Expr} {k : Int}
    (h : e.writtenLiteral? text = some k) : e.literalValue? = some k := by
  unfold writtenLiteral? at h
  split at h
  · split at h
    · exact h
    · cases h
  · split at h
    · exact h
    · cases h
  · cases h

/-- The parser takes note of an access with a literal index, behind what it noted before. -/
theorem Function.Site.mentions_split {f : Function} (s : f.Site) {k : Int}
    (hk : s.access.written? = some k) :
    Block.mentions f.body = s.before.filterMap Remark.mention? ++
      .accessed s.access.base k :: s.after.filterMap Remark.mention? := by
  have hmention : (Remark.accessed s.access).mention? = some (.accessed s.access.base k) := by
    rw [Remark.mention?, hk]
    rfl
  rw [Block.mentions_eq, s.split, List.filterMap_append, List.filterMap_cons, hmention]

/-- **Checked indices lie in their arrays.** Let a source be read, with or without complaints. Where
an array is accessed in one of its functions at an index that is written as a literal, behind a
declaration of the array, the number that the design gets is an index of the array. -/
theorem Function.Site.inRange_of_checked {source : String} {program : Program} {f : Function}
    (h : (Program.prepare source).outcome = .ok program) (hf : f ∈ program.functions)
    (s : f.Site) (hs : s.Checked) : s.InRange := by
  intro k hk size hdeclares
  obtain ⟨hwritten, d, hd, hname, harray⟩ := hs
  obtain ⟨v, hv⟩ := Option.isSome_iff_exists.1 hwritten
  have hvalue := Expr.literalValue?_of_writtenLiteral? hv
  rw [Access.vhdl_eq_iff, hvalue] at hk
  cases hk
  have hagree : (Block.mentions f.body).Pairwise Mention.Agrees :=
    (List.pairwise_append.1 (Program.pairwise_agrees_of_prepare h hf)).2.1
  have hsplit := s.mentions_split hv
  obtain ⟨n, hshape⟩ : ∃ n, d.form.shape = .array n := by
    unfold Declaration.isArray at harray
    split at harray
    · cases harray
    · next n init hform => exact ⟨n, by rw [hform]; rfl⟩
  have hbefore : Mention.declared s.access.base (.array n) ∈
      s.before.filterMap Remark.mention? := by
    refine List.mem_filterMap.2 ⟨_, hd, ?_⟩
    rw [Remark.mention?, hshape, hname]
  have hbody : Mention.declared s.access.base (.array n) ∈ Block.mentions f.body := by
    rw [hsplit]
    exact List.mem_append_left _ hbefore
  -- the array has one size throughout the function
  cases Mention.shape_unique hagree hbody (Function.mention_of_declaresArray hdeclares)
  rw [hsplit] at hagree
  have hcross := (List.pairwise_append.1 hagree).2.2
  exact hcross _ hbefore _ List.mem_cons_self rfl

/-- The last element of an array is accessed, once its declaration has been read. -/
theorem inRange_of_checked_last_element :
    let access : Access := ⟨"a", .number "2", "2"⟩
    let array : Declaration := ⟨"a", .int, .array 3 none, ⟨1, 16⟩⟩
    let f : Function := ⟨"f", .int, [⟨.int, "i"⟩],
      [.declare array, .assign ⟨.element "a" (.number "2") "2", .name "i", ⟨1, 26⟩⟩,
        .ret (some (.name "i")) ⟨1, 36⟩], ⟨1, 5⟩⟩
    let s : f.Site := ⟨[.declared array], access, [], rfl⟩
    (Program.prepare "int f(int i) { int a[3]; a[2] = i; return i; }").outcome = .ok ⟨[f]⟩ ∧
      s.Checked ∧ access.expr.vhdl = "a(2)" ∧ s.InRange := by
  intro access array f s
  have hprepare : (Program.prepare "int f(int i) { int a[3]; a[2] = i; return i; }").outcome =
      .ok ⟨[f]⟩ :=
    Program.outcome_prepare_eq_ok.2 ⟨⟨[f]⟩, by with_unfolding_all rfl, rfl⟩
  have hchecked : s.Checked := ⟨by decide, array, List.mem_singleton_self _, rfl, rfl⟩
  exact ⟨hprepare, hchecked, by decide,
    Function.Site.inRange_of_checked hprepare (List.mem_singleton_self f) s hchecked⟩

/-- **Constants that are not checked.** An index in parentheses, and one that is written before the
array is declared, go into the design although they are no indices of the array. -/
theorem constant_index_out_of_range :
    (∃ (f : Function) (s : f.Site),
      (Program.prepare "int f(int i) { int a[3]; a[(5)] = 1; return i; }").outcome = .ok ⟨[f]⟩ ∧
        ¬ s.InRange) ∧
    ∃ (f : Function) (s : f.Site),
      (Program.prepare "int f(int i) { a[9] = 1; int a[3]; return i; }").outcome = .ok ⟨[f]⟩ ∧
        ¬ s.InRange := by
  constructor
  · let array : Declaration := ⟨"a", .int, .array 3 none, ⟨1, 16⟩⟩
    let f : Function := ⟨"f", .int, [⟨.int, "i"⟩],
      [.declare array, .assign ⟨.element "a" (.number "5") "(5)", .number "1", ⟨1, 26⟩⟩,
        .ret (some (.name "i")) ⟨1, 38⟩], ⟨1, 5⟩⟩
    let s : f.Site := ⟨[.declared array], ⟨"a", .number "5", "(5)"⟩, [], rfl⟩
    refine ⟨f, s, Program.outcome_prepare_eq_ok.2 ⟨⟨[f]⟩, by with_unfolding_all rfl, rfl⟩,
      fun h => ?_⟩
    have hrange := h 5 (by decide) 3 ⟨array, List.mem_singleton_self _, rfl, none, rfl⟩
    exact absurd hrange.2 (by decide)
  · let array : Declaration := ⟨"a", .int, .array 3 none, ⟨1, 26⟩⟩
    let f : Function := ⟨"f", .int, [⟨.int, "i"⟩],
      [.assign ⟨.element "a" (.number "9") "9", .number "1", ⟨1, 16⟩⟩, .declare array,
        .ret (some (.name "i")) ⟨1, 36⟩], ⟨1, 5⟩⟩
    let s : f.Site := ⟨[], ⟨"a", .number "9", "9"⟩, [.declared array], rfl⟩
    refine ⟨f, s, Program.outcome_prepare_eq_ok.2 ⟨⟨[f]⟩, by with_unfolding_all rfl, rfl⟩,
      fun h => ?_⟩
    have hrange := h 9 (by decide) 3 ⟨array, List.mem_singleton_self _, rfl, none, rfl⟩
    exact absurd hrange.2 (by decide)

end ClockedC
