import ClockedC.Proofs.NameClashes

/-!
# Families of variable names

A name of the form that variables have consists of a base, the mark `_v` and digits. All names with
one base are a family, and the base itself belongs to it. The digits of a declared name run into
those of the count, so that within a family one variable name may come from several declared names.
Between two families that does not happen.

* `MarkedName` is a name of that form, taken apart. `MarkedName.ofName?_eq_some_iff`: in at most one
  way.
* `nameBase` gives the base of a name.
* `variableName_eq_iff`: variable names are equal if and only if the bases are and the digits run
  together in the same way.
* `variableName_within_family`: clashes stay within a family, and where they cannot happen at all.
-/

namespace ClockedC

/-! ## Names with the mark -/

/-- A name of the form that variables have, taken apart. -/
structure MarkedName where
  base : String
  /-- What stands behind the mark. -/
  digits : List Char
  isDigit : ∀ c ∈ digits, c.isDigit = true
deriving DecidableEq

/-- The name: the base, the mark and the digits. -/
def MarkedName.name (p : MarkedName) : String := p.base ++ "_v" ++ String.ofList p.digits

/-- Whether a name has the form that variables have. -/
def IsMarked (name : String) : Prop := ∃ p : MarkedName, p.name = name

/-- The digits at the end of a name. -/
def endDigits (name : String) : List Char := (name.toList.reverse.takeWhile Char.isDigit).reverse

theorem isDigit_of_mem_endDigits {name : String} {c : Char} (h : c ∈ endDigits name) :
    c.isDigit = true :=
  List.all_eq_true.mp List.all_takeWhile c (List.mem_reverse.mp h)

theorem toList_eq_stem_endDigits (name : String) :
    name.toList = (stem name).reverse ++ endDigits name := by
  unfold stem endDigits
  rw [← List.reverse_append, List.takeWhile_append_dropWhile, List.reverse_reverse]

namespace MarkedName

/-- Takes a name apart. -/
def ofName? (name : String) : Option MarkedName :=
  if hasVariableMark name then
    some ⟨String.ofList ((stem name).drop 2).reverse, endDigits name,
      fun _ => isDigit_of_mem_endDigits⟩
  else none

theorem toList_name (p : MarkedName) : p.name.toList = p.base.toList ++ ['_', 'v'] ++ p.digits := by
  have hmark : "_v".toList = ['_', 'v'] := by decide
  unfold name
  rw [String.toList_append, String.toList_append, hmark, String.toList_ofList]

theorem stem_name (p : MarkedName) : stem p.name = 'v' :: '_' :: p.base.toList.reverse := by
  have hdigits : ∀ c ∈ (String.ofList p.digits).toList, c.isDigit = true := by
    rw [String.toList_ofList]
    exact p.isDigit
  unfold name
  rw [stem_append_of_isDigit _ _ hdigits, stem_append_mark]

theorem endDigits_name (p : MarkedName) : endDigits p.name = p.digits := by
  have hlist := toList_eq_stem_endDigits p.name
  rw [stem_name, toList_name] at hlist
  simpa using hlist.symm

theorem ofName?_name (p : MarkedName) : ofName? p.name = some p := by
  have hmark : hasVariableMark p.name = true := by
    rw [hasVariableMark_eq, stem_name]
    rfl
  unfold ofName?
  rw [if_pos hmark]
  simp only [stem_name, endDigits_name, List.drop_succ_cons, List.drop_zero, List.reverse_reverse,
    String.ofList_toList]

theorem name_of_ofName? {name : String} {p : MarkedName} (h : ofName? name = some p) :
    p.name = name := by
  unfold ofName? at h
  split at h
  case isFalse => cases h
  case isTrue hmark =>
    cases h
    rw [hasVariableMark_eq, List.isPrefixOf_iff_prefix] at hmark
    have hstem := List.prefix_iff_eq_append.mp hmark
    apply String.ext
    rw [toList_name, String.toList_ofList, toList_eq_stem_endDigits name]
    conv => rhs; rw [← hstem, List.reverse_append]
    rfl

/-- A name can be taken apart in at most one way. -/
theorem ofName?_eq_some_iff {name : String} {p : MarkedName} :
    ofName? name = some p ↔ p.name = name := by
  constructor
  · exact name_of_ofName?
  · rintro rfl
    exact p.ofName?_name

theorem name_inj {p q : MarkedName} : p.name = q.name ↔ p = q := by
  rw [← ofName?_eq_some_iff, ofName?_name, Option.some.injEq, eq_comm]

end MarkedName

/-- The test for the mark finds the names that have the form of variables. -/
theorem hasVariableMark_iff {name : String} : hasVariableMark name = true ↔ IsMarked name := by
  unfold IsMarked
  simp only [← MarkedName.ofName?_eq_some_iff]
  unfold MarkedName.ofName?
  split <;> simp [*]

instance (name : String) : Decidable (IsMarked name) := decidable_of_iff _ hasVariableMark_iff

theorem isMarked_variableName (source : String) (ordinal : Nat) :
    IsMarked (variableName source ordinal) :=
  hasVariableMark_iff.mp (hasVariableMark_variableName source ordinal)

/-! ## Families -/

/-- The base of a name. A name without the mark is its own base. -/
def nameBase (name : String) : String :=
  match MarkedName.ofName? name with
  | some p => p.base
  | none => name

/-- The digits behind the mark of a name. -/
def markDigits (name : String) : List Char :=
  match MarkedName.ofName? name with
  | some p => p.digits
  | none => []

theorem isDigit_of_mem_markDigits {name : String} {c : Char} (h : c ∈ markDigits name) :
    c.isDigit = true := by
  unfold markDigits at h
  cases hp : MarkedName.ofName? name with
  | none =>
    rw [hp] at h
    cases h
  | some p =>
    rw [hp] at h
    exact p.isDigit c h

theorem countFront_eq (source : String) :
    countFront source = (nameBase source).toList ++ ['_', 'v'] ++ markDigits source := by
  unfold countFront nameBase markDigits
  cases hp : MarkedName.ofName? source with
  | none =>
    have hmark : ¬ hasVariableMark source = true := by
      rw [hasVariableMark_iff]
      rintro ⟨p, hname⟩
      rw [MarkedName.ofName?_eq_some_iff.mpr hname] at hp
      cases hp
    rw [if_neg hmark, List.append_nil]
  | some p =>
    have hname := MarkedName.name_of_ofName? hp
    rw [if_pos (hasVariableMark_iff.mpr ⟨p, hname⟩), ← hname, p.toList_name]

/-- The variable for a declaration, taken apart. Its base is that of the declared name, whose digits
the count follows. -/
def variableParts (source : String) (ordinal : Nat) : MarkedName where
  base := nameBase source
  digits := markDigits source ++ countDigits source ordinal
  isDigit := by
    intro c hc
    rcases List.mem_append.mp hc with hown | hcount
    · exact isDigit_of_mem_markDigits hown
    · exact isDigit_of_mem_countDigits hcount

theorem name_variableParts (source : String) (ordinal : Nat) :
    (variableParts source ordinal).name = variableName source ordinal := by
  apply String.ext
  rw [MarkedName.toList_name, toList_variableName_eq, countFront_eq, List.append_assoc _ _
    (countDigits source ordinal)]
  rfl

/-- Variable names are equal if and only if they are in the same family and the digits of the
declared name and of the count run together in the same way. -/
theorem variableName_eq_iff {m n : String} {i j : Nat} :
    variableName m i = variableName n j ↔
      nameBase m = nameBase n ∧
        markDigits m ++ countDigits m i = markDigits n ++ countDigits n j := by
  rw [← name_variableParts, ← name_variableParts, MarkedName.name_inj, MarkedName.mk.injEq]
  exact Iff.rfl

/-- **Variable names clash within a family only.** The name of a variable bears the mark, so it is
never a name without it. Where two declared names lead to the same variable name, they have the same
base. The declared names and the counts are then equal if the names are, or if neither of them bears
the mark, or if both are declared for the first time. -/
theorem variableName_within_family (m n : String) (i j : Nat) :
    (IsMarked (variableName m i) ∧ ∀ u, ¬ IsMarked u → variableName m i ≠ u) ∧
      (variableName m i = variableName n j →
        nameBase m = nameBase n ∧
          (m = n ∨ (¬ IsMarked m ∧ ¬ IsMarked n) ∨ (i = 0 ∧ j = 0) → m = n ∧ i = j)) := by
  refine ⟨⟨isMarked_variableName m i, ?_⟩, fun heq => ⟨(variableName_eq_iff.mp heq).1, ?_⟩⟩
  · rintro u hu rfl
    exact hu (isMarked_variableName m i)
  · intro hcase
    have hname : m = n := by
      apply Classical.byContradiction
      intro hne
      -- otherwise one of the names is a variable name of the other, at a lower count
      rcases hcase with hsame | ⟨hm, hn⟩ | ⟨rfl, rfl⟩
      · exact hne hsame
      · rcases exists_of_variableName_eq hne heq with ⟨g, -, rfl⟩ | ⟨g, -, rfl⟩
        · exact hn (isMarked_variableName m g)
        · exact hm (isMarked_variableName n g)
      · rcases exists_of_variableName_eq hne heq with ⟨g, hg, -⟩ | ⟨g, hg, -⟩
        · exact Nat.not_lt_zero g hg
        · exact Nat.not_lt_zero g hg
    subst hname
    exact ⟨rfl, variableName_right_inj heq⟩

/-- Names of one family do clash: the eleventh `x` and the first `x_v1` lead to the same name. -/
theorem eleventh_named_as_first :
    variableName "x" 10 = variableName "x_v1" 0 ∧ nameBase "x" = nameBase "x_v1" := by
  have heq : variableName "x" 10 = variableName "x_v1" 0 := by decide
  exact ⟨heq, ((variableName_within_family "x" "x_v1" 10 0).2 heq).1⟩

end ClockedC
