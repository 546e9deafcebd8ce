import ClockedC.Token.Scan

/-!
# Reading VHDL expressions

Expressions of VHDL are layered. Logical operators bind loosest. Then come the relations, the sums
with an optional sign before their first term, the products, and `not`. The primaries are names,
literals, calls `f(...)` and expressions in parentheses. This file reads a text by these layers into
a tree of operators. Parentheses leave no trace in the tree.

* `lex` splits a text into lexemes.
* `expression` puts together what stands on one level of parentheses: the operators that bind
  loosest split it first.
* `Reader.step` takes one lexeme. What stands between parentheses is put together when they close.
* `read` reads a text.

Two facts about the reader are proved.

* `expression_binary`: an operator takes what stands on its two sides, if that binds tight enough.
* `leaves_of_readLexemes`: no name and no literal gets lost, and none changes its place.
-/

namespace ClockedC

namespace Vhdl

/-! ## Trees -/

/-- A binary operator. -/
inductive Operator where
  | and
  | or
  | xor
  | eq
  | ne
  | lt
  | le
  | gt
  | ge
  | add
  | sub
  | mul
  | div
  | mod
deriving DecidableEq, Repr

/-- How an operator is written. -/
def Operator.text : Operator → String
  | and => "and"
  | or => "or"
  | xor => "xor"
  | eq => "="
  | ne => "/="
  | lt => "<"
  | le => "<="
  | gt => ">"
  | ge => ">="
  | add => "+"
  | sub => "-"
  | mul => "*"
  | div => "/"
  | mod => "mod"

/-- The layers of operators, the one that binds loosest first. -/
inductive Layer where
  | logical
  | relational
  | adding
  | multiplying
deriving DecidableEq, Repr

/-- How tightly the operators of a layer bind. -/
def Layer.rank : Layer → Nat
  | logical => 0
  | relational => 1
  | adding => 2
  | multiplying => 3

def Operator.layer : Operator → Layer
  | and | or | xor => .logical
  | eq | ne | lt | le | gt | ge => .relational
  | add | sub => .adding
  | mul | div | mod => .multiplying

/-- What an expression applies to what. -/
inductive Tree where
  | name (n : String)
  | literal (text : String)
  /-- A call, a conversion or an element of an array: VHDL writes them alike. -/
  | apply (f : String) (args : List Tree)
  | signed (op : Operator) (operand : Tree)
  | inverted (operand : Tree)
  | binary (op : Operator) (left right : Tree)
deriving Repr

mutual

/-- The names and literals of a tree, from the left to the right. -/
def Tree.leaves : Tree → List String
  | name n => [n]
  | literal text => [text]
  | apply f args => f :: leavesOfList args
  | signed _ operand => operand.leaves
  | inverted operand => operand.leaves
  | binary _ left right => left.leaves ++ right.leaves

/-- The names and literals of a list of trees. -/
def Tree.leavesOfList : List Tree → List String
  | [] => []
  | t :: ts => t.leaves ++ leavesOfList ts

end

theorem Tree.leavesOfList_append (ts us : List Tree) :
    leavesOfList (ts ++ us) = leavesOfList ts ++ leavesOfList us := by
  induction ts with
  | nil => rfl
  | cons t ts ih => rw [List.cons_append, leavesOfList, leavesOfList, ih, List.append_assoc]

/-! ## Lexemes -/

inductive Lexeme where
  | name (n : String)
  | number (text : String)
  | operator (op : Operator)
  | inverter
  | openParen
  | closeParen
  | comma
  /-- The word for an operator that is not read here. -/
  | reserved
deriving DecidableEq, Repr

/-- The words for operators, in lower case. -/
def operatorWords : List (String × Lexeme) :=
  [("and", .operator .and), ("or", .operator .or), ("xor", .operator .xor), ("mod", .operator .mod),
    ("not", .inverter), ("nand", .reserved), ("nor", .reserved), ("xnor", .reserved),
    ("rem", .reserved), ("abs", .reserved), ("sll", .reserved), ("srl", .reserved),
    ("sla", .reserved), ("sra", .reserved), ("rol", .reserved), ("ror", .reserved)]

/-- The lexeme of a word for an operator. Upper case is as good as lower case. -/
def operatorWord? (word : String) : Option Lexeme :=
  operatorWords.lookup (String.ofList (word.toList.map Char.toLower))

/-- The lexeme of a word. -/
def Lexeme.ofWord (word : String) : Lexeme :=
  (operatorWord? word).getD (.name word)

/-- The lexeme that begins with `c`, and the count of characters of `cs` that belong to it. Words
and numbers are as in the source language. Two minus signs begin a comment, which no expression
has. -/
def lexemeAt (c : Char) (cs : List Char) : Option (Lexeme × Nat) :=
  if Scan.startsName c then
    let n := (cs.takeWhile Scan.continuesName).length
    some (Lexeme.ofWord (String.ofList (c :: cs.take n)), n)
  else if c.isDigit then
    let n := Scan.numberTail cs
    some (.number (String.ofList (c :: cs.take n)), n)
  else
    match c, cs with
    | '(', _ => some (.openParen, 0)
    | ')', _ => some (.closeParen, 0)
    | ',', _ => some (.comma, 0)
    | '=', _ => some (.operator .eq, 0)
    | '/', '=' :: _ => some (.operator .ne, 1)
    | '/', _ => some (.operator .div, 0)
    | '<', '=' :: _ => some (.operator .le, 1)
    | '<', _ => some (.operator .lt, 0)
    | '>', '=' :: _ => some (.operator .ge, 1)
    | '>', _ => some (.operator .gt, 0)
    | '+', _ => some (.operator .add, 0)
    | '-', '-' :: _ => none
    | '-', _ => some (.operator .sub, 0)
    | '*', _ => some (.operator .mul, 0)
    | _, _ => none

/-- The lexemes of a text. -/
def lex : List Char → Option (List Lexeme)
  | [] => some []
  | c :: cs =>
    if c = ' ' then lex cs
    else
      match lexemeAt c cs with
      | none => none
      | some (l, n) => (lex (cs.drop n)).map (l :: ·)
termination_by cs => cs.length
decreasing_by
  all_goals
    simp only [List.length_drop, List.length_cons]
    omega

/-! ## One level of parentheses -/

/-- What stands on one level of parentheses. An operand is bare where it is a name that is not in
parentheses: only such a name can be the name of a function. -/
inductive Item where
  | operand (t : Tree) (bare : Bool)
  | operator (op : Operator)
  | inverter
deriving Repr

/-- The operator of an item, if it is one of a layer. -/
def Item.operatorOn? (layer : Layer) : Item → Option Operator
  | .operator op => if op.layer = layer then some op else none
  | .operand .. | .inverter => none

/-- Splits items at the operators of a layer. -/
def split (layer : Layer) : List Item → List Item × List (Operator × List Item)
  | [] => ([], [])
  | i :: is =>
    match i.operatorOn? layer with
    | some op => ([], (op, (split layer is).1) :: (split layer is).2)
    | none => (i :: (split layer is).1, (split layer is).2)

/-- Goes on with operators and their right operands, from the left to the right. -/
def joined (part : List Item → Option Tree) (left : Tree) :
    List (Operator × List Item) → Option Tree
  | [] => some left
  | (op, is) :: others => (part is).bind fun right => joined part (.binary op left right) others

/-- `factor ::= [ not ] primary` -/
def factor : List Item → Option Tree
  | [.operand t _] => some t
  | [.inverter, .operand t _] => some (.inverted t)
  | _ => none

/-- `term ::= factor { multiplying_operator factor }` -/
def term (is : List Item) : Option Tree :=
  let parts := split .multiplying is
  (factor parts.1).bind fun t => joined factor t parts.2

/-- `sum ::= [ sign ] term { adding_operator term }` -/
def sum (is : List Item) : Option Tree :=
  match split .adding is with
  | ([], (sign, first) :: others) => (term first).bind fun t => joined term (.signed sign t) others
  | (first, others) => (term first).bind fun t => joined term t others

/-- `relation ::= sum [ relational_operator sum ]` -/
def relation (is : List Item) : Option Tree :=
  match split .relational is with
  | (first, []) => sum first
  | (first, [(op, second)]) => (sum first).bind fun l => (sum second).map fun r => .binary op l r
  | _ => none

/-- `expression ::= relation { logical_operator relation }`, with one operator throughout. -/
def expression (is : List Item) : Option Tree :=
  let parts := split .logical is
  if (parts.2.map Prod.fst).Pairwise (· = ·) then
    (relation parts.1).bind fun t => joined relation t parts.2
  else none

/-! ## How operators group

An operator takes for its operands what stands on its two sides, as long as all that stands there
binds tighter. The operators of sums and products group to the left, so on their left there may be
operators of the same layer too. -/

/-- No item is an operator of the layer. -/
def Free (layer : Layer) (is : List Item) : Prop :=
  ∀ i ∈ is, i.operatorOn? layer = none

theorem split_of_free {layer : Layer} {is : List Item} (h : Free layer is) :
    split layer is = (is, []) := by
  induction is with
  | nil => rfl
  | cons i is ih =>
    have his : Free layer is := fun j hj => h j (List.mem_cons_of_mem i hj)
    rw [split, h i List.mem_cons_self, ih his]

theorem split_operator (op : Operator) (is js : List Item) :
    split op.layer (is ++ .operator op :: js) =
      ((split op.layer is).1,
        (split op.layer is).2 ++ (op, (split op.layer js).1) :: (split op.layer js).2) := by
  induction is with
  | nil => simp [split, Item.operatorOn?]
  | cons i is ih =>
    rw [List.cons_append, split, split, ih]
    cases i.operatorOn? op.layer with
    | none => rfl
    | some op' => rfl

theorem joined_append (part : List Item → Option Tree) (left : Tree)
    (ps qs : List (Operator × List Item)) :
    joined part left (ps ++ qs) = (joined part left ps).bind fun t => joined part t qs := by
  induction ps generalizing left with
  | nil => rfl
  | cons p ps ih =>
    simp only [List.cons_append, joined, ih, Option.bind_assoc]

theorem joined_singleton (part : List Item → Option Tree) (left : Tree) (op : Operator)
    (is : List Item) : joined part left [(op, is)] = (part is).map (.binary op left) := by
  simp only [joined, Option.map_eq_bind, Function.comp_def]

theorem term_of_free {is : List Item} (h : Free .multiplying is) : term is = factor is := by
  simp [term, split_of_free h, joined]

theorem sum_of_free {is : List Item} (h : Free .adding is) : sum is = term is := by
  simp [sum, split_of_free h, joined]

theorem relation_of_free {is : List Item} (h : Free .relational is) : relation is = sum is := by
  rw [relation, split_of_free h]

theorem expression_of_free {is : List Item} (h : Free .logical is) :
    expression is = relation is := by
  simp [expression, split_of_free h, joined]

theorem term_snoc {op : Operator} {is js : List Item} (hop : op.layer = .multiplying)
    (hjs : Free .multiplying js) :
    term (is ++ .operator op :: js) =
      (term is).bind fun s => (factor js).map (.binary op s) := by
  rw [term, term, ← hop, split_operator, hop, split_of_free hjs, Option.bind_assoc]
  simp only [joined_append, joined_singleton]

theorem sum_snoc {op : Operator} {is js : List Item} (hop : op.layer = .adding) (hne : is ≠ [])
    (hjs : Free .adding js) :
    sum (is ++ .operator op :: js) = (sum is).bind fun s => (term js).map (.binary op s) := by
  have hsplit : split .adding (is ++ .operator op :: js) =
      ((split .adding is).1, (split .adding is).2 ++ [(op, js)]) := by
    rw [← hop, split_operator, hop, split_of_free hjs]
  rw [sum, sum, hsplit]
  -- What stands before the first operator may be nothing only where that operator is a sign.
  rcases hparts : split .adding is with ⟨_ | ⟨i, first⟩, _ | ⟨⟨sign, second⟩, others⟩⟩
  · cases is with
    | nil => exact absurd rfl hne
    | cons i is =>
      rw [split] at hparts
      cases h : i.operatorOn? .adding <;> rw [h] at hparts <;> cases hparts
  all_goals
    simp only [List.nil_append, List.cons_append, ← joined_singleton, ← joined_append,
      Option.bind_assoc]

theorem relation_binary {op : Operator} {is js : List Item} (hop : op.layer = .relational)
    (his : Free .relational is) (hjs : Free .relational js) :
    relation (is ++ .operator op :: js) = (sum is).bind fun s => (sum js).map (.binary op s) := by
  rw [relation, ← hop, split_operator, hop, split_of_free his, split_of_free hjs]
  rfl

theorem expression_binary_logical {op : Operator} {is js : List Item} (hop : op.layer = .logical)
    (his : Free .logical is) (hjs : Free .logical js) :
    expression (is ++ .operator op :: js) =
      (relation is).bind fun s => (relation js).map (.binary op s) := by
  rw [expression, ← hop, split_operator, hop, split_of_free his, split_of_free hjs]
  simp [joined_singleton]

/-- Every operator among the items binds tighter than those of the layer. -/
def Tighter (layer : Layer) (is : List Item) : Prop :=
  ∀ op, Item.operator op ∈ is → layer.rank < op.layer.rank

namespace Tighter

variable {layer : Layer} {is js : List Item}

theorem free {layer' : Layer} (h : Tighter layer is) (hle : layer'.rank ≤ layer.rank) :
    Free layer' is := by
  intro i hi
  cases i with
  | operand t bare => rfl
  | inverter => rfl
  | operator op =>
    have hlt := h op hi
    refine if_neg ?_
    rintro rfl
    omega

theorem mono {layer' : Layer} (h : Tighter layer is) (hle : layer'.rank ≤ layer.rank) :
    Tighter layer' is :=
  fun op hop => Nat.lt_of_le_of_lt hle (h op hop)

theorem nil : Tighter layer [] := by
  intro op hop
  cases hop

theorem binary {op : Operator} (his : Tighter layer is) (hjs : Tighter layer js)
    (hop : layer.rank < op.layer.rank) : Tighter layer (is ++ .operator op :: js) := by
  intro op' hmem
  rcases List.mem_append.1 hmem with hmem | hmem
  · exact his op' hmem
  · rcases List.mem_cons.1 hmem with heq | hmem
    · rw [Item.operator.inj heq]
      exact hop
    · exact hjs op' hmem

theorem expression_eq_sum (h : Tighter .relational is) : expression is = sum is := by
  rw [expression_of_free (h.free (by decide)), relation_of_free (h.free (by decide))]

theorem expression_eq_term (h : Tighter .adding is) : expression is = term is := by
  rw [(h.mono (by decide)).expression_eq_sum, sum_of_free (h.free (by decide))]

theorem expression_eq_factor (h : Tighter .multiplying is) : expression is = factor is := by
  rw [(h.mono (by decide)).expression_eq_term, term_of_free (h.free (by decide))]

end Tighter

/-- The layer whose operators need parentheses on the left of an operator of the given one. -/
def Layer.onLeft : Layer → Layer
  | logical => logical
  | relational => relational
  | adding => relational
  | multiplying => adding

/-- An operator is applied to what is read on its two sides. -/
theorem expression_binary {op : Operator} {is js : List Item} (hne : is ≠ [])
    (his : Tighter op.layer.onLeft is) (hjs : Tighter op.layer js) :
    expression (is ++ .operator op :: js) =
      (expression is).bind fun s => (expression js).map (.binary op s) := by
  cases hop : op.layer with
  | logical =>
    rw [hop] at his hjs
    have his : Free .logical is := his.free (by decide)
    have hjs : Free .logical js := hjs.free (by decide)
    rw [expression_binary_logical hop his hjs, expression_of_free his, expression_of_free hjs]
  | relational =>
    rw [hop] at his hjs
    have hall : Tighter .logical (is ++ .operator op :: js) :=
      (his.mono (by decide)).binary (hjs.mono (by decide)) (by rw [hop]; decide)
    rw [expression_of_free (hall.free (by decide)),
      relation_binary hop (his.free (by decide)) (hjs.free (by decide)), his.expression_eq_sum,
      hjs.expression_eq_sum]
  | adding =>
    rw [hop] at his hjs
    have hall : Tighter .relational (is ++ .operator op :: js) :=
      his.binary (hjs.mono (by decide)) (by rw [hop]; decide)
    rw [hall.expression_eq_sum, sum_snoc hop hne (hjs.free (by decide)), his.expression_eq_sum,
      hjs.expression_eq_term]
  | multiplying =>
    rw [hop] at his hjs
    have hall : Tighter .adding (is ++ .operator op :: js) :=
      his.binary (hjs.mono (by decide)) (by rw [hop]; decide)
    rw [hall.expression_eq_term, term_snoc hop (hjs.free (by decide)), his.expression_eq_term,
      hjs.expression_eq_factor]

/-- A sign before a product is the sign of the whole product. -/
theorem expression_sign {op : Operator} {is : List Item} (hop : op.layer = .adding)
    (his : Tighter .adding is) :
    expression (.operator op :: is) = (expression is).map (.signed op) := by
  have hall : Tighter .relational ([] ++ .operator op :: is) :=
    Tighter.nil.binary (his.mono (by decide)) (by rw [hop]; decide)
  have hsplit : split .adding ([] ++ .operator op :: is) = ([], [(op, is)]) := by
    rw [← hop, split_operator, hop, split_of_free (his.free (by decide))]
    rfl
  rw [List.nil_append] at hall hsplit
  rw [hall.expression_eq_sum, his.expression_eq_term, sum, hsplit]
  simp only [joined, Option.map_eq_bind, Function.comp_def]

/-- The last operator of a sum splits it. -/
theorem exists_last_adding {is : List Item} (h : Tighter .relational is) :
    Tighter .adding is ∨
      ∃ front op back, is = front ++ .operator op :: back ∧ op.layer = .adding ∧
        Tighter .relational front ∧ Tighter .adding back := by
  induction is with
  | nil => exact .inl .nil
  | cons i is ih =>
    have htail : Tighter .relational is := fun op hop => h op (List.mem_cons_of_mem i hop)
    rcases ih htail with his | ⟨front, op, back, rfl, hop, hfront, hback⟩
    · by_cases hi : ∃ op : Operator, i = .operator op ∧ op.layer = .adding
      · obtain ⟨op, rfl, hop⟩ := hi
        exact .inr ⟨[], op, is, rfl, hop, .nil, his⟩
      · refine .inl fun op hmem => ?_
        rcases List.mem_cons.1 hmem with heq | hmem
        · have hlt := h op (List.mem_cons.2 (.inl heq))
          cases hlayer : op.layer with
          | adding => exact absurd ⟨op, heq.symm, hlayer⟩ hi
          | multiplying => decide
          | logical => simp [hlayer, Layer.rank] at hlt
          | relational => simp [hlayer, Layer.rank] at hlt
        · exact his op hmem
    · refine .inr ⟨i :: front, op, back, rfl, hop, ?_, hback⟩
      intro op' hmem
      rcases List.mem_cons.1 hmem with heq | hmem
      · exact h op' (List.mem_cons.2 (.inl heq))
      · exact hfront op' hmem

theorem expression_dangling_multiplying {op : Operator} {is : List Item} (his : Tighter .adding is)
    (hop : op.layer = .multiplying) : expression (is ++ [.operator op]) = none := by
  have hall : Tighter .adding (is ++ [.operator op]) := his.binary .nil (by rw [hop]; decide)
  have hnone : factor [] = none := rfl
  rw [hall.expression_eq_term, term_snoc hop (Tighter.nil.free (Nat.le_refl _)), hnone]
  exact Option.bind_fun_none _

/-- Nothing can be read where an operator lacks its right operand. -/
theorem expression_dangling {op : Operator} {is : List Item} (his : Tighter .relational is)
    (hop : op.layer = .adding ∨ op.layer = .multiplying) :
    expression (is ++ [.operator op]) = none := by
  rcases hop with hop | hop
  · cases is with
    | nil =>
      rw [List.nil_append, expression_sign hop .nil]
      rfl
    | cons i is =>
      rw [expression_binary (List.cons_ne_nil i is) (by rw [hop]; exact his) .nil]
      exact Option.bind_fun_none _
  · rcases exists_last_adding his with his | ⟨front, op', back, rfl, hop', hfront, hback⟩
    · exact expression_dangling_multiplying his hop
    · have hback' : Tighter .adding (back ++ [.operator op]) :=
        hback.binary .nil (by rw [hop]; decide)
      have hnone := expression_dangling_multiplying hback hop
      rw [List.append_assoc, List.cons_append]
      cases front with
      | nil => rw [List.nil_append, expression_sign hop' hback', hnone, Option.map_none]
      | cons i front =>
        rw [expression_binary (List.cons_ne_nil i front) (by rw [hop']; exact hfront)
          (by rw [hop']; exact hback'), hnone]
        exact Option.bind_fun_none _

/-- Nothing can be read where a sign follows an operator. -/
theorem expression_sign_after {op sign : Operator} {is js : List Item}
    (his : Tighter .relational is) (hop : op.layer = .adding ∨ op.layer = .multiplying)
    (hsign : sign.layer = .adding) (hjs : Tighter .adding js) :
    expression (is ++ .operator op :: .operator sign :: js) = none := by
  have hrank : Layer.relational.rank < op.layer.rank := by
    rcases hop with hop | hop <;> rw [hop] <;> decide
  have hsplit : is ++ .operator op :: .operator sign :: js =
      (is ++ [.operator op]) ++ .operator sign :: js := by simp
  rw [hsplit, expression_binary (by simp) (by rw [hsign]; exact his.binary .nil hrank)
    (by rw [hsign]; exact hjs), expression_dangling his hop, Option.bind_none]

/-! ## Nested levels -/

/-- A level that is not closed yet: where it holds the arguments of a function, the function and the
arguments before the current one; and the items of the current one, the last of them first. -/
structure Level where
  call : Option (String × List Tree)
  items : List Item
deriving Repr

namespace Level

/-- What stands on a level. -/
def settled? (level : Level) : Option Tree :=
  expression level.items.reverse

/-- The operand that a level is for the one around it, when `t` is the last that stands on it. -/
def closed (level : Level) (t : Tree) : Tree :=
  match level.call with
  | some (f, args) => .apply f (args ++ [t])
  | none => t

/-- Takes an item. -/
def push (level : Level) (i : Item) : Level :=
  ⟨level.call, i :: level.items⟩

end Level

/-- How far a sequence of lexemes has been read: the current level and those around it. -/
structure Reader where
  level : Level
  outer : List Level
deriving Repr

namespace Reader

/-- Before the first lexeme. -/
def start : Reader :=
  ⟨⟨none, []⟩, []⟩

/-- Takes an item on the current level. -/
def push (r : Reader) (i : Item) : Reader :=
  ⟨r.level.push i, r.outer⟩

/-- Takes a lexeme. -/
def step (r : Reader) : Lexeme → Option Reader
  | .name n => some (r.push (.operand (.name n) true))
  | .number text => some (r.push (.operand (.literal text) false))
  | .operator op => some (r.push (.operator op))
  | .inverter => some (r.push .inverter)
  | .openParen =>
    match r.level.items with
    | .operand (.name f) true :: items =>
      some ⟨⟨some (f, []), []⟩, ⟨r.level.call, items⟩ :: r.outer⟩
    | _ => some ⟨⟨none, []⟩, r.level :: r.outer⟩
  | .comma =>
    match r.level.call with
    | some (f, args) => r.level.settled?.map fun t => ⟨⟨some (f, args ++ [t]), []⟩, r.outer⟩
    | none => none
  | .closeParen =>
    match r.outer with
    | level :: outer =>
      r.level.settled?.map fun t => ⟨level.push (.operand (r.level.closed t) false), outer⟩
    | [] => none
  | .reserved => none

/-- Takes lexemes one after the other. -/
def run (r : Reader) : List Lexeme → Option Reader
  | [] => some r
  | l :: ls => (r.step l).bind fun r => run r ls

theorem run_append (r : Reader) (ls ms : List Lexeme) :
    r.run (ls ++ ms) = (r.run ls).bind fun r => r.run ms := by
  induction ls generalizing r with
  | nil => rfl
  | cons l ls ih => simp only [List.cons_append, run, ih, Option.bind_assoc]

end Reader

/-- The tree of a sequence of lexemes, all of whose parentheses are closed. -/
def readLexemes (ls : List Lexeme) : Option Tree :=
  match Reader.start.run ls with
  | some ⟨level, []⟩ => level.settled?.map level.closed
  | _ => none

/-- The tree of a text. -/
def read (text : String) : Option Tree :=
  (lex text.toList).bind readLexemes

/-! ## Leaves -/

/-- The name or the literal of a lexeme. -/
def Lexeme.leaves : Lexeme → List String
  | name n => [n]
  | number text => [text]
  | operator _ | inverter | openParen | closeParen | comma | reserved => []

@[simp] theorem Lexeme.leaves_operator (op : Operator) : (operator op).leaves = [] := rfl

@[simp] theorem Lexeme.leaves_inverter : inverter.leaves = [] := rfl

@[simp] theorem Lexeme.leaves_openParen : openParen.leaves = [] := rfl

@[simp] theorem Lexeme.leaves_closeParen : closeParen.leaves = [] := rfl

@[simp] theorem Lexeme.leaves_comma : comma.leaves = [] := rfl

def Item.leaves : Item → List String
  | operand t _ => t.leaves
  | operator _ | inverter => []

/-- What is read has the names and literals of the items, in their order. -/
def KeepsLeaves (part : List Item → Option Tree) : Prop :=
  ∀ is t, part is = some t → t.leaves = is.flatMap Item.leaves

theorem leaves_split (layer : Layer) (is : List Item) :
    (split layer is).1.flatMap Item.leaves ++
      (split layer is).2.flatMap (fun p => p.2.flatMap Item.leaves) = is.flatMap Item.leaves := by
  induction is with
  | nil => rfl
  | cons i is ih =>
    rw [split, List.flatMap_cons, ← ih]
    cases hi : i.operatorOn? layer with
    | none => simp
    | some op =>
      cases i with
      | operator op' => simp [Item.leaves]
      | operand t bare => cases hi
      | inverter => cases hi

theorem KeepsLeaves.joined {part : List Item → Option Tree} (h : KeepsLeaves part)
    {ps : List (Operator × List Item)} {left t : Tree} (hjoined : joined part left ps = some t) :
    t.leaves = left.leaves ++ ps.flatMap fun p => p.2.flatMap Item.leaves := by
  induction ps generalizing left with
  | nil =>
    rw [Vhdl.joined, Option.some.injEq] at hjoined
    simp [hjoined]
  | cons p ps ih =>
    rw [Vhdl.joined] at hjoined
    obtain ⟨right, hright, hjoined⟩ := Option.bind_eq_some_iff.1 hjoined
    rw [ih hjoined, Tree.leaves, h _ _ hright, List.flatMap_cons, List.append_assoc]

theorem keepsLeaves_factor : KeepsLeaves factor := by
  intro is t h
  fun_cases factor is with
  | case1 s bare =>
    rw [factor, Option.some.injEq] at h
    simp [Item.leaves, h]
  | case2 s bare =>
    rw [factor, Option.some.injEq] at h
    simp [← h, Item.leaves, Tree.leaves]
  | case3 => simp [factor] at h

theorem keepsLeaves_term : KeepsLeaves term := by
  intro is t h
  obtain ⟨s, hs, hjoined⟩ := Option.bind_eq_some_iff.1 h
  rw [keepsLeaves_factor.joined hjoined, keepsLeaves_factor _ _ hs, leaves_split]

theorem keepsLeaves_sum : KeepsLeaves sum := by
  intro is t h
  rw [← leaves_split .adding is]
  rw [sum] at h
  split at h
  next sign first others hsplit =>
    obtain ⟨s, hs, hjoined⟩ := Option.bind_eq_some_iff.1 h
    rw [keepsLeaves_term.joined hjoined, Tree.leaves, keepsLeaves_term _ _ hs, hsplit]
    simp
  next first others hsplit =>
    obtain ⟨s, hs, hjoined⟩ := Option.bind_eq_some_iff.1 h
    rw [keepsLeaves_term.joined hjoined, keepsLeaves_term _ _ hs, hsplit]

theorem keepsLeaves_relation : KeepsLeaves relation := by
  intro is t h
  rw [← leaves_split .relational is]
  rw [relation] at h
  split at h
  next first hsplit =>
    rw [keepsLeaves_sum _ _ h, hsplit]
    simp
  next first op second hsplit =>
    obtain ⟨l, hl, h⟩ := Option.bind_eq_some_iff.1 h
    obtain ⟨r, hr, rfl⟩ := Option.map_eq_some_iff.1 h
    rw [Tree.leaves, keepsLeaves_sum _ _ hl, keepsLeaves_sum _ _ hr, hsplit]
    simp
  next => cases h

theorem keepsLeaves_expression : KeepsLeaves expression := by
  intro is t h
  rw [expression] at h
  split at h
  · obtain ⟨s, hs, hjoined⟩ := Option.bind_eq_some_iff.1 h
    rw [keepsLeaves_relation.joined hjoined, keepsLeaves_relation _ _ hs, leaves_split]
  · cases h

namespace Level

def leaves (level : Level) : List String :=
  match level.call with
  | some (f, args) => f :: Tree.leavesOfList args ++ level.items.reverse.flatMap Item.leaves
  | none => level.items.reverse.flatMap Item.leaves

theorem leaves_of_call (f : String) (args : List Tree) (items : List Item) :
    leaves ⟨some (f, args), items⟩ =
      f :: Tree.leavesOfList args ++ items.reverse.flatMap Item.leaves := rfl

theorem leaves_of_no_call (items : List Item) :
    leaves ⟨none, items⟩ = items.reverse.flatMap Item.leaves := rfl

theorem leaves_push (level : Level) (i : Item) :
    (level.push i).leaves = level.leaves ++ i.leaves := by
  rw [push, leaves, leaves]
  cases level.call with
  | none => simp
  | some call => simp

theorem leaves_closed {level : Level} {t : Tree} (h : level.settled? = some t) :
    (level.closed t).leaves = level.leaves := by
  have hitems := keepsLeaves_expression _ _ h
  rw [closed, leaves]
  cases level.call with
  | none => exact hitems
  | some call => simp [hitems, Tree.leaves, Tree.leavesOfList_append, Tree.leavesOfList]

end Level

namespace Reader

/-- The names and literals that have been read so far. -/
def leaves (r : Reader) : List String :=
  r.outer.reverse.flatMap Level.leaves ++ r.level.leaves

theorem leaves_step {r r' : Reader} {l : Lexeme} (h : r.step l = some r') :
    r'.leaves = r.leaves ++ l.leaves := by
  have hpush : ∀ i : Item, (r.push i).leaves = r.leaves ++ i.leaves := by
    intro i
    rw [leaves, leaves, push, Level.leaves_push, List.append_assoc]
  cases l with
  | name n =>
    cases h
    exact hpush _
  | number text =>
    cases h
    exact hpush _
  | operator op =>
    cases h
    exact hpush _
  | inverter =>
    cases h
    exact hpush _
  | reserved => cases h
  | openParen =>
    obtain ⟨⟨call, items⟩, outer⟩ := r
    rw [step] at h
    split at h
    next f items hitems =>
      cases hitems
      cases h
      have hname : Level.leaves ⟨call, .operand (.name f) true :: items⟩ =
          Level.leaves ⟨call, items⟩ ++ [f] :=
        Level.leaves_push ⟨call, items⟩ (.operand (.name f) true)
      simp [leaves, hname, Level.leaves_of_call, Tree.leavesOfList]
    next =>
      cases h
      simp [leaves, Level.leaves_of_no_call]
  | comma =>
    obtain ⟨⟨call, items⟩, outer⟩ := r
    rw [step] at h
    split at h
    next f args hcall =>
      cases hcall
      obtain ⟨t, ht, rfl⟩ := Option.map_eq_some_iff.1 h
      have hitems := keepsLeaves_expression _ _ ht
      simp [leaves, Level.leaves_of_call, Tree.leavesOfList_append, hitems,
        Tree.leavesOfList]
    next => cases h
  | closeParen =>
    obtain ⟨level, outer⟩ := r
    cases outer with
    | nil => cases h
    | cons around outer =>
      obtain ⟨t, ht, rfl⟩ := Option.map_eq_some_iff.1 h
      simp [leaves, Level.leaves_push, Item.leaves, Level.leaves_closed ht]

theorem leaves_run {r r' : Reader} {ls : List Lexeme} (h : r.run ls = some r') :
    r'.leaves = r.leaves ++ ls.flatMap Lexeme.leaves := by
  induction ls generalizing r with
  | nil =>
    cases h
    simp
  | cons l ls ih =>
    obtain ⟨r₁, hstep, hrun⟩ := Option.bind_eq_some_iff.1 h
    rw [ih hrun, leaves_step hstep, List.flatMap_cons, List.append_assoc]

end Reader

/-- No name and no literal gets lost, and none changes its place. -/
theorem leaves_of_readLexemes {ls : List Lexeme} {t : Tree} (h : readLexemes ls = some t) :
    t.leaves = ls.flatMap Lexeme.leaves := by
  rw [readLexemes] at h
  split at h
  next level hrun =>
    obtain ⟨s, hs, rfl⟩ := Option.map_eq_some_iff.1 h
    rw [Level.leaves_closed hs]
    exact Reader.leaves_run hrun
  next => cases h

end Vhdl

end ClockedC
