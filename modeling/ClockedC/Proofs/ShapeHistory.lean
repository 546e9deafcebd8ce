import ClockedC.Proofs.ExprGrammar

/-!
# What a function says about its names

Read in the order of its tokens, a function mentions names: it declares them with a shape, and it
accesses elements of arrays at literal indices. The parser keeps a table of shapes and refuses a
mention that does not fit it.

* `Block.mentions` and `Function.mentions` list the mentions in the order of the tokens.
* `Mention.Agrees` says when a mention fits an earlier one.
* `ShapeTable.Holds` says that a table has a name down as a scalar or as an array, and
  `ShapeTable.holds_register` what it has down once one more name is registered.
* `ShapeTable.Follows` says how a table goes along with a list of mentions.
* `ShapeTable.exists_follows_iff`: the empty table can go along with a list of mentions if and only
  if each of them agrees with all earlier ones.
-/

namespace ClockedC

/-- What a function says about a name. -/
inductive Mention where
  /-- The name is declared with a shape. -/
  | declared (name : String) (shape : Shape)
  /-- The element at a literal index is accessed. -/
  | accessed (base : String) (index : Int)
deriving DecidableEq

/-- A name keeps the shape that it was first declared with, and a literal index is one of the array
that was declared before it. -/
def Mention.Agrees : (earlier later : Mention) → Prop
  | .declared name shape, .declared name' shape' => name = name' → shape = shape'
  | .declared name (.array size), .accessed base index => name = base → 0 ≤ index ∧ index < size
  | _, _ => True

instance : DecidableRel Mention.Agrees
  | .declared name shape, .declared name' shape' =>
    inferInstanceAs (Decidable (name = name' → shape = shape'))
  | .declared name (.array size), .accessed base index =>
    inferInstanceAs (Decidable (name = base → 0 ≤ index ∧ index < size))
  | .declared _ .scalar, .accessed .. | .accessed .., _ => isTrue trivial

/-! ## Mentions of a function -/

/-- The literal accesses in an expression. -/
def Expr.mentions (e : Expr) : List Mention :=
  e.literalAccesses.map fun a => .accessed a.1 a.2

/-- A name is declared before the expression of its initial value is read. -/
def Form.mentions (name : String) : Form → List Mention
  | .scalar none => [.declared name .scalar]
  | .scalar (some e) => .declared name .scalar :: e.mentions
  | .array size _ => [.declared name (.array size)]

def Declaration.mentions (d : Declaration) : List Mention :=
  d.form.mentions d.name

/-- An element that is written to is accessed as one that is read. -/
def Target.mentions : Target → List Mention
  | .name _ => []
  | .element base index text => (Expr.element base index text).mentions

def Assignment.mentions (a : Assignment) : List Mention :=
  a.target.mentions ++ a.value.mentions

def ForStart.mentions : ForStart → List Mention
  | .declare d => d.mentions
  | .assign a => a.mentions

mutual

/-- The mentions of a statement. The increment of a `for` loop stands before its body. -/
def Stmt.mentions : Stmt → List Mention
  | .declare d => d.mentions
  | .assign a => a.mentions
  | .ret value _ => (value.map Expr.mentions).getD []
  | .branch condition body otherwise _ =>
    condition.mentions ++ (Block.mentions body ++ otherwise.mentions)
  | .whileLoop condition body _ => condition.mentions ++ Block.mentions body
  | .forLoop init condition body increment _ =>
    (init.map ForStart.mentions).getD [] ++ (condition.mentions ++
      ((increment.map Assignment.mentions).getD [] ++ Block.mentions body))
  | .jump .. => []

/-- The mentions of an alternative. -/
def Alternative.mentions : Alternative → List Mention
  | .none => []
  | .body body => Block.mentions body
  | .branch condition body otherwise _ =>
    condition.mentions ++ (Block.mentions body ++ otherwise.mentions)

/-- The mentions of a body. -/
def Block.mentions : List Stmt → List Mention
  | [] => []
  | s :: ss => s.mentions ++ Block.mentions ss

end

/-- Parameters are scalars, declared before the body. -/
def Function.mentions (f : Function) : List Mention :=
  f.params.map (fun p => .declared p.name .scalar) ++ Block.mentions f.body

theorem Block.mentions_append (ss ss' : List Stmt) :
    Block.mentions (ss ++ ss') = Block.mentions ss ++ Block.mentions ss' := by
  induction ss with
  | nil => rfl
  | cons s ss ih => rw [List.cons_append, mentions, mentions, ih, List.append_assoc]

mutual

/-- Whether a statement holds a jump that no loop of it surrounds. -/
def Stmt.hasStrayJump : Stmt → Bool
  | .branch _ body otherwise _ => Block.hasStrayJump body || otherwise.hasStrayJump
  | .jump .. => true
  | .declare _ | .assign _ | .ret .. | .whileLoop .. | .forLoop .. => false

/-- Whether an alternative holds a jump that no loop of it surrounds. -/
def Alternative.hasStrayJump : Alternative → Bool
  | .none => false
  | .body body => Block.hasStrayJump body
  | .branch _ body otherwise _ => Block.hasStrayJump body || otherwise.hasStrayJump

/-- Whether a body holds a jump that no loop of it surrounds. -/
def Block.hasStrayJump : List Stmt → Bool
  | [] => false
  | s :: ss => s.hasStrayJump || Block.hasStrayJump ss

end

theorem Block.hasStrayJump_append (ss ss' : List Stmt) :
    Block.hasStrayJump (ss ++ ss') = (Block.hasStrayJump ss || Block.hasStrayJump ss') := by
  induction ss with
  | nil => rfl
  | cons s ss ih => rw [List.cons_append, hasStrayJump, hasStrayJump, ih, Bool.or_assoc]

/-- The static checks: each mention agrees with all earlier ones, and every jump is in a loop. -/
structure Function.Checked (f : Function) : Prop where
  agree : f.mentions.Pairwise Mention.Agrees
  jumps : Block.hasStrayJump f.body = false

instance (f : Function) : Decidable f.Checked :=
  decidable_of_iff (f.mentions.Pairwise Mention.Agrees ∧ Block.hasStrayJump f.body = false)
    ⟨fun h => ⟨h.1, h.2⟩, fun h => ⟨h.agree, h.jumps⟩⟩

/-! ## The table along a list of mentions -/

namespace ShapeTable

variable {t t' : ShapeTable} {name : String} {shape : Shape}

/-- The table has a name down with a shape. -/
def Holds (t : ShapeTable) (name : String) : Shape → Prop
  | .scalar => name ∈ t.scalars
  | .array size => t.size? name = some size

/-- Registers a name with a shape. -/
def register (t : ShapeTable) (name : String) : Shape → Except Conflict Unit × ShapeTable
  | .scalar => t.registerScalar name
  | .array size => t.registerArray name size

/-- What registering a scalar can come to. -/
theorem registerScalar_cases (t : ShapeTable) (name : String) :
    (∃ size, t.size? name = some size ∧
      t.registerScalar name = (.error (.scalarAndArray name), t)) ∨
    t.size? name = none ∧
      t.registerScalar name = (.ok (), { t with scalars := t.scalars.insert name }) := by
  unfold registerScalar
  cases t.size? name with
  | some size => exact .inl ⟨size, rfl, rfl⟩
  | none => exact .inr ⟨rfl, rfl⟩

/-- What registering an array can come to. -/
theorem registerArray_cases (t : ShapeTable) (name : String) (size : Nat) :
    (name ∈ t.scalars ∧ t.registerArray name size = (.error (.scalarAndArray name), t)) ∨
    name ∉ t.scalars ∧
      ((∃ previous, t.size? name = some previous ∧ previous ≠ size ∧
        t.registerArray name size = (.error (.resized name previous size), t)) ∨
      (t.size? name = some size ∧ t.registerArray name size = (.ok (), t)) ∨
      (t.size? name = none ∧
        t.registerArray name size = (.ok (), { t with arrays := (name, size) :: t.arrays }))) := by
  unfold registerArray
  by_cases hscalar : name ∈ t.scalars
  · exact .inl ⟨hscalar, if_pos (List.contains_iff_mem.2 hscalar)⟩
  · rw [if_neg (mt List.contains_iff_mem.1 hscalar)]
    refine .inr ⟨hscalar, ?_⟩
    cases t.size? name with
    | none => exact .inr (.inr ⟨rfl, rfl⟩)
    | some previous =>
      by_cases hsize : previous = size
      · exact .inr (.inl ⟨congrArg some hsize, if_pos hsize⟩)
      · exact .inl ⟨previous, rfl, hsize, if_neg hsize⟩

/-- A name is taken with a shape unless the table holds it with another one. -/
theorem register_eq_ok_iff :
    (t.register name shape).1 = .ok () ↔ ∀ shape', t.Holds name shape' → shape' = shape := by
  cases shape with
  | scalar =>
    rw [register]
    rcases registerScalar_cases t name with ⟨size, hsize, hr⟩ | ⟨hsize, hr⟩
    · rw [hr]
      refine iff_of_false (by simp) fun hscalar => ?_
      cases hscalar (.array size) hsize
    · rw [hr]
      refine iff_of_true rfl fun shape' hholds => ?_
      cases shape' with
      | scalar => rfl
      | array size => cases hsize.symm.trans hholds
  | array size =>
    rw [register]
    rcases registerArray_cases t name size with
      ⟨hmem, hr⟩ | ⟨hmem, ⟨previous, hsize, hne, hr⟩ | ⟨hsize, hr⟩ | ⟨hsize, hr⟩⟩
    · rw [hr]
      refine iff_of_false (by simp) fun harray => ?_
      cases harray .scalar hmem
    · rw [hr]
      refine iff_of_false (by simp) fun harray => ?_
      cases harray (.array previous) hsize
      exact hne rfl
    · rw [hr]
      refine iff_of_true rfl fun shape' hholds => ?_
      cases shape' with
      | scalar => exact absurd hholds hmem
      | array previous =>
        cases hsize.symm.trans hholds
        rfl
    · rw [hr]
      refine iff_of_true rfl fun shape' hholds => ?_
      cases shape' with
      | scalar => exact absurd hholds hmem
      | array previous => cases hsize.symm.trans hholds

/-- Once a name is taken, the table holds it with its shape, and it holds the others as before. -/
theorem holds_register (h : (t.register name shape).1 = .ok ()) (other : String) (shape' : Shape) :
    (t.register name shape).2.Holds other shape' ↔
      (other = name ∧ shape' = shape) ∨ t.Holds other shape' := by
  cases shape with
  | scalar =>
    rw [register] at h ⊢
    rcases registerScalar_cases t name with ⟨size, -, hr⟩ | ⟨-, hr⟩
    · rw [hr] at h
      cases h
    · rw [hr]
      cases shape' with
      | scalar => simp [Holds, List.mem_insert_iff]
      | array size => simp [Holds, size?]
  | array size =>
    rw [register] at h ⊢
    rcases registerArray_cases t name size with
      ⟨-, hr⟩ | ⟨-, ⟨previous, -, -, hr⟩ | ⟨hsize, hr⟩ | ⟨hsize, hr⟩⟩
    · rw [hr] at h
      cases h
    · rw [hr] at h
      cases h
    · rw [hr, iff_or_self]
      rintro ⟨rfl, rfl⟩
      exact hsize
    · rw [hr]
      cases shape' with
      | scalar => simp [Holds]
      | array size' =>
        by_cases hother : other = name
        · subst hother
          have hnone : t.arrays.lookup other = none := hsize
          simp [Holds, size?, hnone, eq_comm]
        · have hne : (other == name) = false := by simpa using hother
          simp [Holds, size?, List.lookup_cons, hother, hne]

/-- Declares a name with a shape, where a conflict ends the work. -/
def declare (t : ShapeTable) (name : String) : Shape → Except Conflict ShapeTable
  | .scalar => t.addScalar name
  | .array size => t.addArray name size

theorem declare_eq_ok : t.declare name shape = .ok t' ↔
    (t.register name shape).1 = .ok () ∧ (t.register name shape).2 = t' := by
  have haccepted : t.declare name shape = accepted (t.register name shape) := by
    cases shape <;> rfl
  rw [haccepted, accepted]
  cases (t.register name shape).1 with
  | ok u => simp
  | error c => simp

/-- The table `t` takes in a list of mentions one after the other and becomes `t'`. -/
def Follows : (t : ShapeTable) → List Mention → (t' : ShapeTable) → Prop
  | t, [], t' => t' = t
  | t, .declared name shape :: ms, t' => ∃ mid, t.declare name shape = .ok mid ∧ Follows mid ms t'
  | t, .accessed base index :: ms, t' => t.inBounds base index = true ∧ Follows t ms t'

theorem follows_append {t t' : ShapeTable} {ms ms' : List Mention} :
    t.Follows (ms ++ ms') t' ↔ ∃ mid, t.Follows ms mid ∧ mid.Follows ms' t' := by
  induction ms generalizing t with
  | nil => simp only [List.nil_append, Follows, exists_eq_left]
  | cons m ms ih =>
    cases m with
    | declared name shape =>
      simp only [List.cons_append, Follows, ih]
      constructor
      · rintro ⟨first, hfirst, mid, hms, hms'⟩
        exact ⟨mid, ⟨first, hfirst, hms⟩, hms'⟩
      · rintro ⟨mid, ⟨first, hfirst, hms⟩, hms'⟩
        exact ⟨first, hfirst, mid, hms, hms'⟩
    | accessed base index =>
      simp only [List.cons_append, Follows, ih]
      constructor
      · rintro ⟨hin, mid, hms, hms'⟩
        exact ⟨mid, ⟨hin, hms⟩, hms'⟩
      · rintro ⟨mid, ⟨hin, hms⟩, hms'⟩
        exact ⟨hin, mid, hms, hms'⟩

/-- Reading an expression leaves the table as it is. -/
theorem follows_mentions {t t' : ShapeTable} {e : Expr} :
    t.Follows e.mentions t' ↔ e.InBounds t ∧ t' = t := by
  rw [Expr.mentions, Expr.InBounds]
  generalize e.literalAccesses = accesses
  induction accesses with
  | nil => simp [Follows]
  | cons a accesses ih =>
    rw [List.map_cons, Follows, ih, List.forall_mem_cons, and_assoc]

/-- An assignment declares nothing. -/
theorem Follows.eq_of_assignment {t t' : ShapeTable} {a : Assignment}
    (h : t.Follows a.mentions t') : t' = t := by
  obtain ⟨mid, htarget, hvalue⟩ := follows_append.1 h
  obtain ⟨-, rfl⟩ := follows_mentions.1 hvalue
  cases htargetForm : a.target with
  | name n =>
    rw [htargetForm] at htarget
    exact htarget
  | element base index text =>
    rw [htargetForm] at htarget
    exact (follows_mentions.1 htarget).2

/-- The table holds just those names that were declared before, with the shapes they were given. -/
def Knows (t : ShapeTable) (past : List Mention) : Prop :=
  ∀ name shape, t.Holds name shape ↔ .declared name shape ∈ past

theorem Knows.exists_declare {past : List Mention} (h : t.Knows past) :
    (∃ t', t.declare name shape = .ok t') ↔ ∀ m ∈ past, m.Agrees (.declared name shape) := by
  simp only [declare_eq_ok, exists_and_left, exists_eq', and_true, register_eq_ok_iff]
  constructor
  · intro hheld m hm
    cases m with
    | accessed base index => trivial
    | declared name' shape' =>
      rintro rfl
      exact hheld shape' ((h name' shape').2 hm)
  · intro hagree shape' hholds
    exact hagree _ ((h name shape').1 hholds) rfl

theorem Knows.declare {past : List Mention} (h : t.Knows past)
    (ht : t.declare name shape = .ok t') : t'.Knows (.declared name shape :: past) := by
  obtain ⟨htaken, rfl⟩ := declare_eq_ok.1 ht
  intro other shape'
  rw [List.mem_cons, Mention.declared.injEq, holds_register htaken, h other shape']

theorem Knows.inBounds_iff {past : List Mention} (h : t.Knows past) {base : String} {index : Int} :
    t.inBounds base index = true ↔ ∀ m ∈ past, m.Agrees (.accessed base index) := by
  constructor
  · intro hin m hm
    match m with
    | .accessed .. | .declared _ .scalar => trivial
    | .declared name (.array size) =>
      rintro rfl
      have hknown : t.size? name = some size := (h name (.array size)).2 hm
      simpa [inBounds, hknown] using hin
  · intro hagree
    cases hsize : t.size? base with
    | none => simp [inBounds, hsize]
    | some size =>
      have hbounds : 0 ≤ index ∧ index < size := hagree _ ((h base (.array size)).1 hsize) rfl
      simpa [inBounds, hsize] using hbounds

theorem Knows.exists_follows {t : ShapeTable} {past ms : List Mention} (h : t.Knows past) :
    (∃ t', t.Follows ms t') ↔
      (∀ m ∈ past, ∀ m' ∈ ms, m.Agrees m') ∧ ms.Pairwise Mention.Agrees := by
  induction ms generalizing t past with
  | nil => simp [Follows]
  | cons m ms ih =>
    -- what is asked of `ms` after `m` is what is asked of it when `m` has joined the past
    have hsplit : ((∀ m₁ ∈ past, ∀ m' ∈ m :: ms, m₁.Agrees m') ∧
        (m :: ms).Pairwise Mention.Agrees) ↔
        (∀ m₁ ∈ past, m₁.Agrees m) ∧
          (∀ m₁ ∈ m :: past, ∀ m' ∈ ms, m₁.Agrees m') ∧ ms.Pairwise Mention.Agrees := by
      simp only [List.forall_mem_cons, List.pairwise_cons]
      constructor
      · rintro ⟨hpast, hm, hms⟩
        exact ⟨fun m₁ h₁ => (hpast m₁ h₁).1, ⟨hm, fun m₁ h₁ => (hpast m₁ h₁).2⟩, hms⟩
      · rintro ⟨hnow, ⟨hm, hlater⟩, hms⟩
        exact ⟨fun m₁ h₁ => ⟨hnow m₁ h₁, hlater m₁ h₁⟩, hm, hms⟩
    rw [hsplit]
    cases m with
    | declared name shape =>
      constructor
      · rintro ⟨t', mid, hmid, hfollows⟩
        exact ⟨h.exists_declare.1 ⟨mid, hmid⟩, (ih (h.declare hmid)).1 ⟨t', hfollows⟩⟩
      · rintro ⟨hnow, hlater⟩
        obtain ⟨mid, hmid⟩ := h.exists_declare.2 hnow
        obtain ⟨t', hfollows⟩ := (ih (h.declare hmid)).2 hlater
        exact ⟨t', mid, hmid, hfollows⟩
    | accessed base index =>
      have hknows : t.Knows (.accessed base index :: past) := by
        intro name shape
        rw [h name shape, List.mem_cons]
        exact ⟨.inr, fun hmem => hmem.resolve_left nofun⟩
      rw [← h.inBounds_iff, ← ih hknows]
      exact ⟨fun ⟨t', hin, hms⟩ => ⟨hin, t', hms⟩, fun ⟨hin, t', hms⟩ => ⟨t', hin, hms⟩⟩

/-- The empty table goes along with the mentions that agree with one another. -/
theorem exists_follows_iff {ms : List Mention} :
    (∃ t', ShapeTable.empty.Follows ms t') ↔ ms.Pairwise Mention.Agrees := by
  have hknows : ShapeTable.empty.Knows [] := fun name shape => by
    cases shape <;> simp [Holds, size?, ShapeTable.empty]
  rw [hknows.exists_follows]
  exact and_iff_right nofun

end ShapeTable

end ClockedC
