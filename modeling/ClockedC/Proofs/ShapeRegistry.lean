import ClockedC.Proofs.ShapeHistory

/-!
# The table of shapes as a registry

A table is used step by step: names are declared, some declarations are refused, and now and then
all names are forgotten. Whatever was done to it, the table answers from the declarations that it
has taken since it was last cleared, and the first declaration of a name settles its shape.

* `ShapeTable.perform` carries out one operation. The table comes back with the outcome, whichever
  it is.
* `ShapeTable.run` is the table after some operations, of which `ShapeTable.taken` gives those that
  are not refused.
* `sinceClear` gives the operations after the last time that all names were forgotten.
* `ShapeTable.Records` is what each step preserves: the arrays and the scalars have no name in
  common, no array is listed twice, and all names have the shapes that they were declared with.
* `ShapeTable.registers_run`: how the table answers after any operations.
-/

namespace ClockedC

/-- What is done to a table. -/
inductive TableOp where
  | declare (name : String) (shape : Shape)
  /-- All names are forgotten. -/
  | clear
deriving DecidableEq, Repr

/-- The size that an operation gives to an array. -/
def TableOp.arraySize? (name : String) : TableOp → Option Nat
  | .declare other (.array size) => if other = name then some size else none
  | _ => none

theorem TableOp.arraySize?_eq_some {name : String} {size : Nat} {op : TableOp} :
    op.arraySize? name = some size ↔ op = .declare name (.array size) := by
  cases op with
  | clear => simp [arraySize?]
  | declare other shape =>
    cases shape with
    | scalar => simp [arraySize?]
    | array size' => simp [arraySize?]

/-! ## Operations since the last clearing -/

/-- The operations after the last `clear`, in order. -/
def sinceClear (ops : List TableOp) : List TableOp :=
  (ops.reverse.takeWhile (· ≠ .clear)).reverse

@[simp]
theorem sinceClear_concat_clear (ops : List TableOp) : sinceClear (ops ++ [.clear]) = [] := by
  simp [sinceClear]

@[simp]
theorem sinceClear_concat_declare (ops : List TableOp) (name : String) (shape : Shape) :
    sinceClear (ops ++ [.declare name shape]) = sinceClear ops ++ [.declare name shape] := by
  simp [sinceClear]

namespace ShapeTable

variable {t : ShapeTable} {name : String}

/-! ## Single operations -/

/-- Carries out an operation. -/
def perform (t : ShapeTable) : TableOp → Except Conflict Unit × ShapeTable
  | .declare name shape => t.register name shape
  | .clear => (.ok (), empty)

theorem registerScalar_eq_error_iff {c : Conflict} :
    (t.registerScalar name).1 = .error c ↔ c = .scalarAndArray name ∧ t.size? name ≠ none := by
  rcases registerScalar_cases t name with ⟨size, hsize, hr⟩ | ⟨hsize, hr⟩
  · simp [hr, hsize, eq_comm]
  · simp [hr, hsize]

theorem registerArray_eq_error_iff {size : Nat} {c : Conflict} :
    (t.registerArray name size).1 = .error c ↔
      (name ∈ t.scalars ∧ c = .scalarAndArray name) ∨
        name ∉ t.scalars ∧ ∃ previous, t.size? name = some previous ∧ previous ≠ size ∧
          c = .resized name previous size := by
  rcases registerArray_cases t name size with
    ⟨hmem, hr⟩ | ⟨hmem, ⟨previous, hsize, hne, hr⟩ | ⟨hsize, hr⟩ | ⟨hsize, hr⟩⟩
  · simp [hr, hmem, eq_comm]
  · simp [hr, hmem, hsize, hne, @eq_comm _ c]
  · simp [hr, hmem, hsize]
  · simp [hr, hmem, hsize]

/-- An operation that is refused gives the table back as it was. -/
theorem perform_of_error {op : TableOp} {c : Conflict} (h : (t.perform op).1 = .error c) :
    (t.perform op).2 = t := by
  cases op with
  | clear => cases h
  | declare name shape =>
    cases shape with
    | scalar =>
      rw [perform, register] at h ⊢
      rcases registerScalar_cases t name with ⟨size, -, hr⟩ | ⟨-, hr⟩
      · rw [hr]
      · rw [hr] at h
        cases h
    | array size =>
      rw [perform, register] at h ⊢
      rcases registerArray_cases t name size with
        ⟨-, hr⟩ | ⟨-, ⟨previous, -, -, hr⟩ | ⟨-, hr⟩ | ⟨-, hr⟩⟩
      · rw [hr]
      · rw [hr]
      · rw [hr]
      · rw [hr] at h
        cases h

/-! ## Runs -/

/-- The table after some operations. -/
def run (t : ShapeTable) (ops : List TableOp) : ShapeTable :=
  ops.foldl (fun t op => (t.perform op).2) t

/-- Those of some operations that are not refused, one being carried out after the other. -/
def taken (t : ShapeTable) : List TableOp → List TableOp
  | [] => []
  | op :: ops =>
    match t.perform op with
    | (.ok (), t') => op :: t'.taken ops
    | (.error _, t') => t'.taken ops

theorem run_cons (t : ShapeTable) (op : TableOp) (ops : List TableOp) :
    t.run (op :: ops) = (t.perform op).2.run ops := rfl

theorem taken_cons_of_ok {op : TableOp} (h : (t.perform op).1 = .ok ()) (ops : List TableOp) :
    t.taken (op :: ops) = op :: (t.perform op).2.taken ops := by
  have hpair : t.perform op = (.ok (), (t.perform op).2) := Prod.ext h rfl
  rw [taken, hpair]

theorem taken_cons_of_error {op : TableOp} {c : Conflict} (h : (t.perform op).1 = .error c)
    (ops : List TableOp) : t.taken (op :: ops) = (t.perform op).2.taken ops := by
  have hpair : t.perform op = (.error c, (t.perform op).2) := Prod.ext h rfl
  rw [taken, hpair]

/-! ## What a table holds -/

/-- The table lists each array once and no scalar as an array, and it holds the names with the
shapes of their declarations among `past`. -/
structure Records (t : ShapeTable) (past : List TableOp) : Prop where
  holds_iff : ∀ name shape, t.Holds name shape ↔ .declare name shape ∈ past
  apart : ∀ name size, name ∈ t.scalars → (name, size) ∉ t.arrays
  nodup : (t.arrays.map Prod.fst).Nodup

theorem records_empty : empty.Records [] where
  holds_iff name shape := by cases shape <;> simp [Holds, size?, empty]
  apart name size h := by cases h
  nodup := .nil

/-- An array that is listed has the size it is listed with. -/
theorem mem_arrays_iff (h : (t.arrays.map Prod.fst).Nodup) {size : Nat} :
    (name, size) ∈ t.arrays ↔ t.size? name = some size := by
  unfold size?
  generalize t.arrays = arrays at h
  induction arrays with
  | nil => simp
  | cons e arrays ih =>
    obtain ⟨other, size'⟩ := e
    obtain ⟨hnew, hrest⟩ := List.nodup_cons.mp h
    rw [List.mem_cons, ih hrest, List.lookup_cons]
    by_cases hname : name = other
    · subst hname
      -- the other arrays say nothing about the name
      have hnone : arrays.lookup name ≠ some size := by
        intro hsome
        exact hnew (List.mem_map.mpr ⟨_, (ih hrest).mpr hsome, rfl⟩)
      simp [hnone, eq_comm]
    · have hne : (name == other) = false := by simpa using hname
      simp [hname, hne]

/-- A name that is registered is not listed as an array once more. -/
theorem nodup_register (h : (t.arrays.map Prod.fst).Nodup) (name : String) (shape : Shape) :
    ((t.register name shape).2.arrays.map Prod.fst).Nodup := by
  cases shape with
  | scalar =>
    rw [register]
    rcases registerScalar_cases t name with ⟨size, -, hr⟩ | ⟨-, hr⟩
    · rwa [hr]
    · rwa [hr]
  | array size =>
    rw [register]
    rcases registerArray_cases t name size with
      ⟨-, hr⟩ | ⟨-, ⟨previous, -, -, hr⟩ | ⟨-, hr⟩ | ⟨hsize, hr⟩⟩
    · rwa [hr]
    · rwa [hr]
    · rwa [hr]
    · rw [hr]
      refine List.nodup_cons.mpr ⟨?_, h⟩
      intro hmem
      obtain ⟨⟨_, size'⟩, hentry, rfl⟩ := List.mem_map.mp hmem
      rw [mem_arrays_iff h, hsize] at hentry
      cases hentry

/-- A declaration that is taken is recorded. -/
theorem Records.register {past : List TableOp} (h : t.Records past) {shape : Shape}
    (htaken : (t.register name shape).1 = .ok ()) :
    (t.register name shape).2.Records (past ++ [.declare name shape]) := by
  have hheld := register_eq_ok_iff.mp htaken
  have hnodup := nodup_register h.nodup name shape
  refine ⟨?_, ?_, hnodup⟩
  · intro other shape'
    rw [holds_register htaken, h.holds_iff, List.mem_append, List.mem_singleton,
      TableOp.declare.injEq, or_comm]
  · -- a name in both lists was in them before, or it is the one whose other shape was refused
    intro other size hscalar harray
    rw [mem_arrays_iff hnodup] at harray
    rcases (holds_register htaken other .scalar).mp hscalar with ⟨rfl, rfl⟩ | hwas
    · rcases (holds_register htaken other (.array size)).mp harray with ⟨-, hshape⟩ | hsize
      · cases hshape
      · cases hheld _ hsize
    · rcases (holds_register htaken other (.array size)).mp harray with ⟨rfl, rfl⟩ | hsize
      · cases hheld .scalar hwas
      · exact h.apart other size hwas ((mem_arrays_iff h.nodup).mpr hsize)

/-- One operation that is taken preserves the records. -/
theorem Records.perform {log : List TableOp} (h : t.Records (sinceClear log)) {op : TableOp}
    (htaken : (t.perform op).1 = .ok ()) :
    (t.perform op).2.Records (sinceClear (log ++ [op])) := by
  cases op with
  | declare name shape =>
    rw [sinceClear_concat_declare]
    exact h.register htaken
  | clear =>
    rw [sinceClear_concat_clear]
    exact records_empty

/-- A run preserves the records. -/
theorem Records.run {log : List TableOp} (h : t.Records (sinceClear log)) (ops : List TableOp) :
    (t.run ops).Records (sinceClear (log ++ t.taken ops)) := by
  induction ops generalizing t log with
  | nil => simpa [taken, ShapeTable.run] using h
  | cons op ops ih =>
    rw [run_cons]
    cases hop : (t.perform op).1 with
    | ok u =>
      rw [taken_cons_of_ok hop]
      simpa using ih (h.perform hop)
    | error c =>
      rw [taken_cons_of_error hop, perform_of_error hop]
      exact ih h

/-! ## What a table answers -/

/-- The first declaration of an array settles its size. -/
theorem Records.size?_eq {past : List TableOp} (h : t.Records past) (name : String) :
    t.size? name = past.findSome? (TableOp.arraySize? name) := by
  -- all declarations of the array have the same size, so the one that is found first has it
  cases hfound : past.findSome? (TableOp.arraySize? name) with
  | none =>
    rw [Option.eq_none_iff_forall_ne_some]
    intro size hsize
    have hmem := (h.holds_iff name (.array size)).mp hsize
    have hnone := List.findSome?_eq_none_iff.mp hfound _ hmem
    rw [TableOp.arraySize?_eq_some.mpr rfl] at hnone
    cases hnone
  | some size =>
    obtain ⟨op, hop, hsize⟩ := List.exists_of_findSome?_eq_some hfound
    rw [TableOp.arraySize?_eq_some.mp hsize] at hop
    exact (h.holds_iff name (.array size)).mpr hop

/-- The count of arrays is that of the names that are declared as such. -/
theorem Records.arrayCount_eq {past : List TableOp} (h : t.Records past) :
    ∃ names : List String, names.Nodup ∧
      (∀ name, name ∈ names ↔ ∃ size, .declare name (.array size) ∈ past) ∧
      t.arrayCount = names.length := by
  refine ⟨t.arrays.map Prod.fst, h.nodup, ?_, by rw [arrayCount, List.length_map]⟩
  intro name
  rw [List.mem_map]
  constructor
  · rintro ⟨⟨_, size⟩, hentry, rfl⟩
    exact ⟨size, (h.holds_iff _ (.array size)).mp ((mem_arrays_iff h.nodup).mp hentry)⟩
  · rintro ⟨size, hmem⟩
    have hsize := (h.holds_iff name (.array size)).mpr hmem
    exact ⟨(name, size), (mem_arrays_iff h.nodup).mpr hsize, rfl⟩

theorem inBounds_iff {t : ShapeTable} {name : String} {index : Int} :
    t.inBounds name index = true ↔
      t.size? name = none ∨ ∃ size, t.size? name = some size ∧ 0 ≤ index ∧ index < size := by
  unfold inBounds
  cases t.size? name <;> simp

/-- For words of 64 bits the test is that of the sign and a comparison without signs. -/
theorem inBounds_word_iff {t : ShapeTable} {name : String} {size : UInt64} (index : Int64)
    (h : t.size? name = some size.toNat) :
    t.inBounds name index.toInt = true ↔ 0 ≤ index ∧ index.toUInt64 < size := by
  have hvalue : 0 ≤ index.toInt → (index.toUInt64.toNat : Int) = index.toInt := by
    intro hsign
    have hcond := BitVec.toInt_eq_toNat_cond index.toBitVec
    have hbound := index.toBitVec.isLt
    split at hcond
    · exact hcond.symm
    · have hbits : index.toInt = index.toBitVec.toInt := rfl
      omega
  rw [inBounds_iff, h, Int64.le_iff_toInt_le, Int64.toInt_zero, UInt64.lt_iff_toNat_lt]
  simp only [reduceCtorEq, false_or, Option.some.injEq, exists_eq_left']
  apply and_congr_right
  intro hsign
  have := hvalue hsign
  omega

/-- A table answers from the operations that it has taken since it was last cleared. -/
structure Registers (t : ShapeTable) (past : List TableOp) : Prop where
  /-- No name is both a scalar and an array. -/
  apart : ∀ name size, name ∈ t.scalars → (name, size) ∉ t.arrays
  /-- The size of an array is that of its first declaration. -/
  size : ∀ name, t.size? name = past.findSome? (TableOp.arraySize? name)
  /-- An array is refused as a scalar exactly if its name was declared as one. -/
  scalar_conflict : ∀ name size other,
    (t.registerArray name size).1 = .error (.scalarAndArray other) ↔
      other = name ∧ .declare name .scalar ∈ past
  /-- An array is refused for its size exactly if it has another one already. -/
  size_conflict : ∀ name size other previous size',
    (t.registerArray name size).1 = .error (.resized other previous size') ↔
      (other = name ∧ size' = size) ∧ t.size? name = some previous ∧ previous ≠ size
  /-- A scalar is refused exactly if its name is that of an array. -/
  array_conflict : ∀ name c,
    (t.registerScalar name).1 = .error c ↔ c = .scalarAndArray name ∧ t.size? name ≠ none
  /-- What is refused gives the whole table back as it was. -/
  refused : ∀ op c, (t.perform op).1 = .error c → (t.perform op).2 = t
  /-- The count is that of the distinct names that were declared as arrays. -/
  count : ∃ names : List String, names.Nodup ∧
    (∀ name, name ∈ names ↔ ∃ size, .declare name (.array size) ∈ past) ∧
    t.arrayCount = names.length
  /-- An index is in bounds if there is no size, or if it is not negative and below the size. -/
  bounds : ∀ name index, t.inBounds name index = true ↔
    t.size? name = none ∨ ∃ size, t.size? name = some size ∧ 0 ≤ index ∧ index < size
  /-- For words this is a test of the sign and a comparison without signs. -/
  word_bounds : ∀ name (size : UInt64) (index : Int64), t.size? name = some size.toNat →
    (t.inBounds name index.toInt = true ↔ 0 ≤ index ∧ index.toUInt64 < size)

/-- **The first declaration counts.** After any operations on the empty table, refused ones among
them, it answers from those that it has taken since it was last cleared. -/
theorem registers_run (ops : List TableOp) :
    (empty.run ops).Registers (sinceClear (empty.taken ops)) := by
  have h : (empty.run ops).Records (sinceClear (empty.taken ops)) :=
    @Records.run empty [] records_empty ops
  constructor
  case apart => exact h.apart
  case size => exact h.size?_eq
  case scalar_conflict =>
    intro name size other
    rw [registerArray_eq_error_iff, ← h.holds_iff]
    simp [Holds, and_comm]
  case size_conflict =>
    intro name size other previous size'
    rw [registerArray_eq_error_iff]
    constructor
    · rintro (⟨-, hc⟩ | ⟨-, previous', hsize, hne, hc⟩)
      · cases hc
      · cases hc
        exact ⟨⟨rfl, rfl⟩, hsize, hne⟩
    · rintro ⟨⟨rfl, rfl⟩, hsize, hne⟩
      have hscalar : other ∉ (empty.run ops).scalars := fun hscalar =>
        h.apart other previous hscalar ((mem_arrays_iff h.nodup).mpr hsize)
      exact .inr ⟨hscalar, previous, hsize, hne, rfl⟩
  case array_conflict => exact fun name c => registerScalar_eq_error_iff
  case refused => exact fun op c => perform_of_error
  case count => exact h.arrayCount_eq
  case bounds => exact fun name index => inBounds_iff
  case word_bounds => exact fun name size index => inBounds_word_iff index

/-- The sign has to be looked at: compared without signs, `-2` is below the greatest size. -/
theorem negative_index_out_of_bounds :
    (-2 : Int64).toUInt64 < 0xffffffffffffffff ∧
      (empty.run [.declare "a" (.array 0xffffffffffffffff)]).inBounds "a" (-2) ≠ true := by
  refine ⟨by decide, ?_⟩
  have h := registers_run [.declare "a" (.array 0xffffffffffffffff)]
  intro hin
  have hsign := ((h.word_bounds "a" 0xffffffffffffffff (-2) (by decide)).mp hin).1
  exact absurd hsign (by decide)

end ShapeTable

end ClockedC
