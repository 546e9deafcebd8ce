import ClockedC.Proofs.ExprLayout

/-!
# Whether the text of an expression keeps its grouping

The text of an expression is read back with the precedence of VHDL. Most operations put their
operands in parentheses. A minus sign stays without them where it stands beside an arithmetic
operator, and then the text can be read as another tree, or as none.

* `Expr.signsGuarded` computes whether all minus signs stand where this does no harm.
* `Expr.asRead_layout_iff`: exactly then every operation is read with its own operands.
* `Parse.read_vhdl_eq_image_iff`: this holds of all expressions of a source, as long as no name is a
  word for an operator of VHDL.
-/

namespace ClockedC

open Vhdl (Operator Layer Tree Layout)

namespace Expr

/-! ## When a sign does no harm -/

/-- The text of an expression has a minus sign outside of all parentheses. -/
def opensSign : Expr → Bool
  | unary .neg (number _) => false
  | unary .neg _ => true
  | _ => false

/-- No sign comes to stand beside an arithmetic operator, apart from signs on the left of a sum. -/
def signsApart (op : BinaryOp) (left right : Expr) : Bool :=
  match op with
  | .add | .sub => !right.opensSign
  | .mul | .div | .mod => !left.opensSign && !right.opensSign
  | _ => true

/-- All over the text of an expression, no sign comes to stand where it changes the grouping. -/
def signsGuarded : Expr → Bool
  | number _ | name _ | call .. => true
  | element _ index _ => index.signsGuarded
  | unary _ operand => operand.signsGuarded
  | binary op left right =>
    left.signsGuarded && right.signsGuarded && signsApart op left right

/-! ## What the text is read as

Around an operand that is read as `t`, each of the writings above is read as its image of `t`. Only
arithmetic operators do not give their operands parentheses enough. -/

theorem asRead_integer (n : Int) : (Layout.integer n).asRead = some (.integer n) := by
  cases n with
  | ofNat n => rfl
  | negSucc n => rfl

theorem asRead_comparedWithZero (op : Operator) (a : Layout) :
    (Layout.binary op (.apply "unsigned" a) (.number "0")).asRead =
      a.asRead.map fun t => .binary op (.apply "unsigned" [t]) (.literal "0") := by
  rw [Layout.asRead_binary ((Layout.primary_apply _ _).tighter _)
    ((Layout.primary_number _).tighter _), Layout.asRead_apply]
  cases a.asRead with
  | none => rfl
  | some t => rfl

theorem asRead_layoutLogical (e : Expr) (a : Layout) :
    (e.layoutLogical a).asRead = a.asRead.map e.imageLogical := by
  unfold layoutLogical imageLogical
  split
  · rw [Layout.asRead_parens, Option.map_id']
  · exact asRead_comparedWithZero .ne a

theorem asRead_layoutInverted (e : Expr) (a : Layout) :
    (e.layoutInverted a).asRead = a.asRead.map e.imageInverted := by
  unfold layoutInverted imageInverted
  split
  · rw [Layout.asRead_inverted (Layout.primary_parens a), Layout.asRead_parens]
  · rw [Layout.asRead_parens]
    exact asRead_comparedWithZero .eq a

theorem asRead_layoutCompared (e : Expr) (a : Layout) :
    (e.layoutCompared a).asRead = a.asRead.map e.imageCompared := by
  unfold layoutCompared imageCompared
  split
  · rw [Layout.asRead_applyTwo]
    cases a.asRead with
    | none => rfl
    | some t => rfl
  · rw [Option.map_id']
  · exact Layout.asRead_apply "unsigned" a

theorem asRead_layoutArithmetic (e : Expr) (a : Layout) :
    (e.layoutArithmetic a).asRead = a.asRead := by
  unfold layoutArithmetic
  split
  · exact Layout.asRead_parens a
  · rfl

theorem asRead_subtracted (a : Layout) :
    (Layout.binary .sub (.number "0") (.parens a)).asRead =
      a.asRead.map (.binary .sub (.literal "0")) := by
  rw [Layout.asRead_binary ((Layout.primary_number _).tighter _)
    ((Layout.primary_parens _).tighter _), Layout.asRead_parens]
  rfl

/-- A literal is always read as it is meant. -/
theorem asRead_layout_of_literal {e : Expr} {n : Int} (h : e.literalValue? = some n) :
    e.layout.asRead = some e.image := by
  unfold literalValue? at h
  split at h
  · rfl
  · rfl
  · cases h

theorem asRead_layoutCount (e : Expr) :
    (e.layoutCount e.layout).asRead = e.layout.asRead.map e.imageCount := by
  unfold layoutCount imageCount
  cases h : e.literalValue? with
  | some n =>
    rw [asRead_layout_of_literal h]
    exact asRead_integer n
  | none =>
    rw [Layout.asRead_apply, Layout.asRead_apply, Option.map_map]
    rfl

theorem asRead_layoutUnary (op : UnaryOp) (operand : Expr) :
    (layoutUnary op operand operand.layout).asRead =
      operand.layout.asRead.map (imageUnary op operand) := by
  cases op with
  | not => exact asRead_layoutInverted operand operand.layout
  | bitNot =>
    rw [layoutUnary, Layout.asRead_inverted (Layout.primary_apply _ _), Layout.asRead_apply,
      Option.map_map]
    rfl
  | neg =>
    unfold layoutUnary layoutNegated imageUnary imageNegated
    cases operand with
    | number text => rfl
    | name n => rfl
    | element base index text =>
      rw [Layout.asRead_negated ((Layout.primary_apply _ _).tighter _), Layout.asRead_apply,
        Option.map_map]
      rfl
    | call callee args unit position => exact asRead_subtracted _
    | unary op operand => exact asRead_subtracted _
    | binary op left right => exact asRead_subtracted _

/-! ## Arithmetic -/

theorem layoutArithmetic_of_opensSign {e : Expr} (h : e.opensSign = true) (a : Layout) :
    e.layoutArithmetic a = a := by
  unfold opensSign at h
  split at h
  · cases h
  · rfl
  · cases h

/-- What stands before and after a sign that is not in parentheses. -/
theorem layout_of_opensSign {e : Expr} (h : e.opensSign = true) :
    (∃ a, e.layout = .negated (.apply "unsigned" a)) ∨
      ∃ operand : Expr, e.layout = .binary .sub (.number "0") (.parens operand.layout) ∧
        e.image = .binary .sub (.literal "0") operand.image := by
  unfold opensSign at h
  split at h
  · cases h
  next operand hnumber =>
    cases operand with
    | number text => exact absurd rfl (hnumber text)
    | name n => exact .inl ⟨_, rfl⟩
    | element base index text => exact .inl ⟨_, rfl⟩
    | call callee args unit position => exact .inr ⟨_, rfl, rfl⟩
    | unary op operand => exact .inr ⟨_, rfl, rfl⟩
    | binary op left right => exact .inr ⟨_, rfl, rfl⟩
  · cases h

/-- An operand without such a sign stands for itself beside every operator. -/
theorem tighter_layoutArithmetic {e : Expr} (h : e.opensSign = false) (layer : Layer) :
    (e.layoutArithmetic e.layout).Tighter layer := by
  cases e with
  | number text => exact (Layout.primary_number _).tighter layer
  | name n => exact (Layout.primary_name _).tighter layer
  | element base index text => exact (Layout.primary_apply _ _).tighter layer
  | call callee args unit position => exact (Layout.primary_name _).tighter layer
  | binary op left right => exact (Layout.primary_parens _).tighter layer
  | unary op operand =>
    cases op with
    | bitNot => exact Layout.tighter_inverted ((Layout.primary_apply _ _).tighter layer)
    | not =>
      unfold layoutArithmetic layout layoutUnary layoutInverted
      dsimp only
      split
      · exact Layout.tighter_inverted ((Layout.primary_parens _).tighter layer)
      · exact (Layout.primary_parens _).tighter layer
    | neg =>
      cases operand with
      | number text => exact (Layout.primary_applyTwo _ _ _).tighter layer
      | _ => cases h

/-- Next to a sum or a product, an operand is at most a sum. -/
theorem tighter_layoutArithmetic_relational (e : Expr) :
    (e.layoutArithmetic e.layout).Tighter .relational := by
  cases h : e.opensSign with
  | false => exact tighter_layoutArithmetic h .relational
  | true =>
    rw [layoutArithmetic_of_opensSign h]
    rcases layout_of_opensSign h with ⟨a, heq⟩ | ⟨operand, heq, -⟩
    · rw [heq]
      exact Layout.tighter_negated ((Layout.primary_apply _ _).tighter _) (by decide)
    · rw [heq]
      exact Layout.tighter_binary ((Layout.primary_number _).tighter _)
        ((Layout.primary_parens _).tighter _) (by decide)

theorem length_leaves_image {e : Expr} {t : Tree} (h : e.layout.asRead = some t) :
    t.leaves.length = e.image.leaves.length := by
  rw [Layout.leaves_asRead h, tree_layout]

/-- A sign without parentheses on the right of an arithmetic operator changes the grouping. -/
theorem asRead_ne_of_opensSign_right {o : Operator} (left : Expr) {right : Expr} (l : Tree)
    (ho : o.layer = .adding ∨ o.layer = .multiplying) (hsign : right.opensSign = true) :
    (Layout.binary o (left.layoutArithmetic left.layout)
      (right.layoutArithmetic right.layout)).asRead ≠ some (.binary o l right.image) := by
  rw [layoutArithmetic_of_opensSign hsign]
  rcases layout_of_opensSign hsign with ⟨a, heq⟩ | ⟨operand, heq, himage⟩
  · rw [heq, Layout.asRead_binary_negated_right (tighter_layoutArithmetic_relational left)
      ((Layout.primary_apply _ _).tighter _) ho]
    simp
  · have hleft : (Layout.binary o (left.layoutArithmetic left.layout) (.number "0")).Tighter
        .relational :=
      Layout.tighter_binary (tighter_layoutArithmetic_relational left)
        ((Layout.primary_number _).tighter _) (by rcases ho with ho | ho <;> rw [ho] <;> decide)
    rw [heq, himage, ← Layout.asRead_binary_assoc, @Layout.asRead_binary .sub _ _ hleft
      ((Layout.primary_parens _).tighter _), Layout.asRead_parens]
    intro h
    obtain ⟨s, -, h⟩ := Option.bind_eq_some_iff.1 h
    obtain ⟨t, ht, h⟩ := Option.map_eq_some_iff.1 h
    -- The right operand that is read lacks the zero that was put before the sign.
    have hlength := length_leaves_image ht
    rw [(Tree.binary.inj h).2.2] at hlength
    simp [Tree.leaves] at hlength

/-- So does a sign on the left of an operator that binds tighter. -/
theorem asRead_ne_of_opensSign_left {o : Operator} {left right : Expr} (l r : Tree)
    (ho : o.layer = .multiplying) (hleft : left.opensSign = true)
    (hright : right.opensSign = false) :
    (Layout.binary o (left.layoutArithmetic left.layout)
      (right.layoutArithmetic right.layout)).asRead ≠ some (.binary o l r) := by
  have hfactor : ∀ a : Layout, a.Primary →
      (Layout.binary o a (right.layoutArithmetic right.layout)).Tighter .adding := by
    intro a ha
    exact Layout.tighter_binary (ha.tighter _) (tighter_layoutArithmetic hright _)
      (by rw [ho]; decide)
  rw [layoutArithmetic_of_opensSign hleft]
  rcases layout_of_opensSign hleft with ⟨a, heq⟩ | ⟨operand, heq, -⟩
  · rw [heq, Layout.asRead_binary_negated_left,
      Layout.asRead_negated (hfactor _ (Layout.primary_apply _ _))]
    intro h
    obtain ⟨t, -, h⟩ := Option.map_eq_some_iff.1 h
    cases h
  · rw [heq, Layout.asRead_binary_assoc, @Layout.asRead_binary .sub _ _
      ((Layout.primary_number _).tighter _) (hfactor _ (Layout.primary_parens _))]
    intro h
    obtain ⟨s, -, h⟩ := Option.bind_eq_some_iff.1 h
    obtain ⟨t, -, h⟩ := Option.map_eq_some_iff.1 h
    cases h
    cases ho

/-! ## All operators -/

theorem map_eq_some_image_iff {f : Tree → Tree} (hf : ∀ {s t}, f s = f t → s = t) {x : Option Tree}
    {t : Tree} : x.map f = some (f t) ↔ x = some t := by
  rw [Option.map_eq_some_iff]
  constructor
  · rintro ⟨s, rfl, hs⟩
    rw [hf hs]
  · rintro rfl
    exact ⟨t, rfl, rfl⟩

theorem bind_map_eq_some_image_iff {f : Tree → Tree → Tree}
    (hf : ∀ {s s' t t'}, f s t = f s' t' → s = s' ∧ t = t') {x y : Option Tree} {s t : Tree} :
    (x.bind fun s => y.map (f s)) = some (f s t) ↔ x = some s ∧ y = some t := by
  rw [Option.bind_eq_some_iff]
  constructor
  · rintro ⟨s', rfl, h⟩
    obtain ⟨t', rfl, heq⟩ := Option.map_eq_some_iff.1 h
    obtain ⟨rfl, rfl⟩ := hf heq
    exact ⟨rfl, rfl⟩
  · rintro ⟨rfl, rfl⟩
    exact ⟨s, rfl, rfl⟩

theorem binary_inj {o : Operator} {s s' t t' : Tree} (h : Tree.binary o s t = .binary o s' t') :
    s = s' ∧ t = t' :=
  (Tree.binary.inj h).2

theorem layer_of_arithmetic {op : BinaryOp} {o : Operator} (h : op.form = .arithmetic o) :
    o.layer = .adding ∨ o.layer = .multiplying := by
  cases op <;> cases h <;> simp [Operator.layer]

theorem signsApart_iff_of_arithmetic {op : BinaryOp} {o : Operator} (h : op.form = .arithmetic o)
    (left right : Expr) :
    signsApart op left right = true ↔
      right.opensSign = false ∧ (o.layer = .multiplying → left.opensSign = false) := by
  cases op <;> cases h <;> simp [signsApart, Operator.layer, and_comm]

/-- An arithmetic operation is read with its own operands exactly if no sign stands in the way. -/
theorem asRead_arithmetic_iff {op : BinaryOp} {o : Operator} (h : op.form = .arithmetic o)
    (left right : Expr) :
    (Layout.binary o (left.layoutArithmetic left.layout)
        (right.layoutArithmetic right.layout)).asRead = some (.binary o left.image right.image) ↔
      (left.layout.asRead = some left.image ∧ right.layout.asRead = some right.image) ∧
        signsApart op left right = true := by
  have ho := layer_of_arithmetic h
  rw [signsApart_iff_of_arithmetic h]
  cases hright : right.opensSign with
  | true =>
    have hne := asRead_ne_of_opensSign_right left left.image ho hright
    simp [hne]
  | false =>
    by_cases hleft : o.layer = .multiplying ∧ left.opensSign = true
    · have hne := asRead_ne_of_opensSign_left left.image right.image hleft.1 hleft.2 hright
      simp [hne, hleft]
    · have htight : (left.layoutArithmetic left.layout).Tighter o.layer.onLeft := by
        rcases ho with ho | ho
        · rw [ho]
          exact tighter_layoutArithmetic_relational left
        · exact tighter_layoutArithmetic (by simpa [ho] using hleft) _
      rw [Layout.asRead_binary htight (tighter_layoutArithmetic hright _),
        asRead_layoutArithmetic, asRead_layoutArithmetic, bind_map_eq_some_image_iff binary_inj]
      simpa using fun _ _ => hleft

theorem imageLogical_inj {e : Expr} {s t : Tree} (h : e.imageLogical s = e.imageLogical t) :
    s = t := by
  unfold imageLogical at h
  split at h <;> simpa using h

theorem imageCompared_inj {e : Expr} {s t : Tree} (h : e.imageCompared s = e.imageCompared t) :
    s = t := by
  unfold imageCompared at h
  split at h <;> simpa using h

theorem imageInverted_inj {e : Expr} {s t : Tree} (h : e.imageInverted s = e.imageInverted t) :
    s = t := by
  unfold imageInverted at h
  split at h <;> simpa using h

theorem imageNegated_inj {e : Expr} {s t : Tree} (h : e.imageNegated s = e.imageNegated t) :
    s = t := by
  unfold imageNegated at h
  split at h <;> simpa using h

theorem imageUnary_inj {op : UnaryOp} {e : Expr} {s t : Tree}
    (h : imageUnary op e s = imageUnary op e t) : s = t := by
  cases op with
  | neg => exact imageNegated_inj h
  | not => exact imageInverted_inj h
  | bitNot => simpa [imageUnary] using h

theorem imageCount_inj {e : Expr} (he : e.literalValue? = none) {s t : Tree}
    (h : e.imageCount s = e.imageCount t) : s = t := by
  simpa [imageCount, he] using h

theorem asRead_layoutCount_iff (e : Expr) :
    (e.layoutCount e.layout).asRead = some (e.imageCount e.image) ↔
      e.layout.asRead = some e.image := by
  rw [asRead_layoutCount]
  cases h : e.literalValue? with
  | none => exact map_eq_some_image_iff (imageCount_inj h)
  | some n => simp [asRead_layout_of_literal h]

theorem layer_of_logical {op : BinaryOp} {o : Operator} (h : op.form = .logical o) :
    o.layer = .logical := by
  cases op <;> cases h <;> rfl

theorem tighter_layoutLogical (e : Expr) (a : Layout) : (e.layoutLogical a).Tighter .logical := by
  unfold layoutLogical
  split
  · exact (Layout.primary_parens _).tighter _
  · exact Layout.tighter_binary ((Layout.primary_apply _ _).tighter _)
      ((Layout.primary_number _).tighter _) (by decide)

theorem primary_layoutCompared (e : Expr) : (e.layoutCompared e.layout).Primary := by
  unfold layoutCompared
  split
  · exact Layout.primary_applyTwo _ _ _
  · exact Layout.primary_applyTwo _ _ _
  · exact Layout.primary_apply _ _

theorem signsApart_of_not_arithmetic {op : BinaryOp} (h : ∀ o, op.form ≠ .arithmetic o)
    (left right : Expr) : signsApart op left right = true := by
  cases op with
  | add | sub | mul | div | mod => exact absurd rfl (h _)
  | _ => rfl

/-- A binary operation is read with its own operands exactly if no sign stands in the way. -/
theorem asRead_layoutBinary_iff (op : BinaryOp) (left right : Expr) :
    (layoutBinary op left right left.layout right.layout).asRead =
        some (imageBinary op left right left.image right.image) ↔
      (left.layout.asRead = some left.image ∧ right.layout.asRead = some right.image) ∧
        signsApart op left right = true := by
  have hapart : (∀ o, op.form ≠ .arithmetic o) → signsApart op left right = true :=
    fun hform => signsApart_of_not_arithmetic hform left right
  have hunsigned : ∀ e : Expr, (Layout.apply "unsigned" e.layout).asRead =
      some (.apply "unsigned" [e.image]) ↔ e.layout.asRead = some e.image := by
    intro e
    rw [Layout.asRead_apply]
    exact @map_eq_some_image_iff (fun t => .apply "unsigned" [t]) (by simp) _ _
  unfold layoutBinary imageBinary
  cases h : op.form with
  | arithmetic o => exact asRead_arithmetic_iff h left right
  | logical o =>
    have ho := layer_of_logical h
    have hl := tighter_layoutLogical left left.layout
    have hr := tighter_layoutLogical right right.layout
    rw [Layout.asRead_parens, Layout.asRead_binary (by rw [ho]; exact hl) (by rw [ho]; exact hr),
      bind_map_eq_some_image_iff binary_inj, asRead_layoutLogical, asRead_layoutLogical,
      map_eq_some_image_iff imageLogical_inj, map_eq_some_image_iff imageLogical_inj,
      hapart (by simp [h])]
    simp
  | comparison o =>
    rw [Layout.asRead_binary ((primary_layoutCompared left).tighter _)
        ((primary_layoutCompared right).tighter _),
      bind_map_eq_some_image_iff binary_inj, asRead_layoutCompared, asRead_layoutCompared,
      map_eq_some_image_iff imageCompared_inj, map_eq_some_image_iff imageCompared_inj,
      hapart (by simp [h])]
    simp
  | bitwise o =>
    rw [Layout.asRead_binary ((Layout.primary_apply _ _).tighter _)
        ((Layout.primary_apply _ _).tighter _),
      bind_map_eq_some_image_iff binary_inj, hunsigned, hunsigned, hapart (by simp [h])]
    simp
  | shift f =>
    rw [Layout.asRead_applyTwo, @bind_map_eq_some_image_iff (fun s t => .apply f [s, t]) (by simp),
      hunsigned, asRead_layoutCount_iff, hapart (by simp [h])]
    simp

/-- The text of an expression groups as the expression does exactly if all signs are guarded. -/
theorem asRead_layout_iff : (e : Expr) → (e.layout.asRead = some e.image ↔ e.signsGuarded = true)
  | number text => by simp [layout, image, signsGuarded, Layout.asRead_number]
  | name n => by simp [layout, image, signsGuarded, Layout.asRead_name]
  | call callee args unit position => by simp [layout, image, signsGuarded, Layout.asRead_name]
  | element base index text => by
    have himage : (element base index text).layout.asRead = some (element base index text).image ↔
        (index.layoutCount index.layout).asRead = some (index.imageCount index.image) := by
      rw [layout, image, Layout.asRead_apply]
      exact @map_eq_some_image_iff (fun t => .apply base [t]) (by simp) _ _
    rw [himage, asRead_layoutCount_iff, signsGuarded, asRead_layout_iff index]
  | unary op operand => by
    rw [signsGuarded, ← asRead_layout_iff operand, layout, image, asRead_layoutUnary]
    exact map_eq_some_image_iff imageUnary_inj
  | binary op left right => by
    rw [signsGuarded, Bool.and_eq_true, Bool.and_eq_true, ← asRead_layout_iff left,
      ← asRead_layout_iff right]
    exact asRead_layoutBinary_iff op left right

/-- An expression is read as it is meant exactly if its signs are guarded and none of its names is a
word for an operator. -/
theorem read_vhdl_iff_of_spelled {e : Expr} (h : e.Spelled) :
    Vhdl.read e.vhdl = some e.image ↔
      e.signsGuarded = true ∧ ∀ n ∈ e.shownNames, Vhdl.operatorWord? n = none := by
  have hspelled := h.wellSpelled
  rw [← text_layout, ← asRead_layout_iff, ← plain_layout_iff]
  constructor
  · intro hread
    have hplain := Layout.plain_of_read_text hspelled hread (by rw [tree_layout])
    rw [Layout.read_text hspelled hplain] at hread
    exact ⟨hread, hplain⟩
  · rintro ⟨hread, hplain⟩
    rw [Layout.read_text hspelled hplain, hread]

end Expr

/-- **When the text of an expression keeps its grouping.** Take any expression that the parser reads
anywhere in a source. Its text is read back as the tree in which every operation has its own
operands exactly if no minus sign comes to stand beside an arithmetic operator without parentheses,
signs on the left of a sum apart, and no name is a word for an operator. -/
theorem Parse.read_vhdl_eq_image_iff {source : String} {front ts rest : List Token}
    {table : ShapeTable} {e : Expr} (hscan : scan source = .ok (front ++ ts))
    (hread : Reads (value table ts) e rest) :
    Vhdl.read e.vhdl = some e.image ↔
      e.signsGuarded = true ∧ ∀ n ∈ e.shownNames, Vhdl.operatorWord? n = none := by
  obtain ⟨taken, rfl, hat, -⟩ := reads_value.1 hread
  have htokens := spelled_of_tokens hscan
  apply Expr.read_vhdl_iff_of_spelled
  apply hat.spelled
  intro t ht
  exact htokens t (List.mem_append_right front (List.mem_append_left rest ht))

/-- A sign on the left of a difference does no harm. -/
theorem read_vhdl_eq_image_iff_difference :
    let sum : List Token :=
      [⟨.name "a", ⟨1, 3⟩⟩, ⟨.operator "+", ⟨1, 5⟩⟩, ⟨.number "1", ⟨1, 7⟩⟩]
    let negated : List Token :=
      ⟨.operator "-", ⟨1, 1⟩⟩ :: (⟨.punct .openParen, ⟨1, 2⟩⟩ :: sum ++
        [⟨.punct .closeParen, ⟨1, 8⟩⟩])
    let taken : List Token :=
      negated ++ [⟨.operator "-", ⟨1, 10⟩⟩, ⟨.name "b", ⟨1, 12⟩⟩]
    let e : Expr :=
      .binary .sub (.unary .neg (.binary .add (.name "a") (.number "1"))) (.name "b")
    scan "-(a + 1) - b" = .ok ([] ++ (taken ++ [⟨.eof, ⟨1, 13⟩⟩])) ∧
      Reads (Parse.value .empty (taken ++ [⟨.eof, ⟨1, 13⟩⟩])) e [⟨.eof, ⟨1, 13⟩⟩] ∧
      e.vhdl = "0 - (a + 1) - b" ∧ Vhdl.read e.vhdl = some e.image := by
  intro sum negated taken e
  have hscan : scan "-(a + 1) - b" = .ok ([] ++ (taken ++ [⟨.eof, ⟨1, 13⟩⟩])) := by
    with_unfolding_all rfl
  have hsum : ExprAt 9 sum (.binary .add (.name "a") (.number "1")) :=
    @ExprAt.binary 9 [_] [_] _ _ .add _ rfl (ExprAt.name.loosen (by decide) (by decide))
      (ExprAt.number.loosen (by decide) (by decide))
  have hnegated :
      ExprAt operandLevel negated (.unary .neg (.binary .add (.name "a") (.number "1"))) :=
    @ExprAt.unary _ _ .neg _ (.parens (hsum.loosen (by decide) (by decide)))
  have htaken : ExprAt 9 taken e :=
    @ExprAt.binary 9 negated [_] _ _ .sub _ rfl (hnegated.loosen (by decide) (by decide))
      (ExprAt.name.loosen (by decide) (by decide))
  have hread : Reads (Parse.value .empty (taken ++ [⟨.eof, ⟨1, 13⟩⟩])) e [⟨.eof, ⟨1, 13⟩⟩] :=
    reads_value.2 ⟨taken, rfl, htaken.loosen (by decide) (by decide), rfl,
      fun _ => ⟨by decide, by decide⟩, List.forall_mem_nil _⟩
  exact ⟨hscan, hread, by decide,
    (Parse.read_vhdl_eq_image_iff hscan hread).2 ⟨by decide, by decide⟩⟩

/-- **A factor torn apart.** The right factor of `a * -(b + c)` is the negative of a sum. In the
text only its zero is a factor, and the sum is subtracted from the product. -/
theorem negated_factor_torn_apart :
    let sum : List Token :=
      [⟨.name "b", ⟨1, 7⟩⟩, ⟨.operator "+", ⟨1, 9⟩⟩, ⟨.name "c", ⟨1, 11⟩⟩]
    let negated : List Token :=
      ⟨.operator "-", ⟨1, 5⟩⟩ :: (⟨.punct .openParen, ⟨1, 6⟩⟩ :: sum ++
        [⟨.punct .closeParen, ⟨1, 12⟩⟩])
    let taken : List Token := [⟨.name "a", ⟨1, 1⟩⟩] ++ ⟨.operator "*", ⟨1, 3⟩⟩ :: negated
    let e : Expr := .binary .mul (.name "a") (.unary .neg (.binary .add (.name "b") (.name "c")))
    scan "a * -(b + c)" = .ok (taken ++ [⟨.eof, ⟨1, 13⟩⟩]) ∧
      Reads (Parse.value .empty (taken ++ [⟨.eof, ⟨1, 13⟩⟩])) e [⟨.eof, ⟨1, 13⟩⟩] ∧
      e.vhdl = "a * 0 - (b + c)" ∧
      e.image = .binary .mul (.name "a")
        (.binary .sub (.literal "0") (.binary .add (.name "b") (.name "c"))) ∧
      Vhdl.read e.vhdl = some (.binary .sub (.binary .mul (.name "a") (.literal "0"))
        (.binary .add (.name "b") (.name "c"))) := by
  intro sum negated taken e
  have hsum : ExprAt 9 sum (.binary .add (.name "b") (.name "c")) :=
    @ExprAt.binary 9 [_] [_] _ _ .add _ rfl (ExprAt.name.loosen (by decide) (by decide))
      (ExprAt.name.loosen (by decide) (by decide))
  have hnegated :
      ExprAt operandLevel negated (.unary .neg (.binary .add (.name "b") (.name "c"))) :=
    @ExprAt.unary _ _ .neg _ (.parens (hsum.loosen (by decide) (by decide)))
  have htaken : ExprAt 10 taken e :=
    @ExprAt.binary 10 [_] negated _ _ .mul _ rfl (ExprAt.name.loosen (by decide) (by decide))
      hnegated
  have hread : Reads (Parse.value .empty (taken ++ [⟨.eof, ⟨1, 13⟩⟩])) e [⟨.eof, ⟨1, 13⟩⟩] :=
    reads_value.2 ⟨taken, rfl, htaken.loosen (by decide) (by decide), rfl,
      fun _ => ⟨by decide, by decide⟩, List.forall_mem_nil _⟩
  have hspelled : e.Spelled :=
    ⟨.mk (by decide) (by decide), .mk (by decide) (by decide), .mk (by decide) (by decide)⟩
  have hplain : e.layout.Plain := e.plain_layout_iff.2 (by decide)
  refine ⟨by with_unfolding_all rfl, hread, by decide, rfl, ?_⟩
  rw [← e.text_layout, Layout.read_text hspelled.wellSpelled hplain]
  rfl

end ClockedC
