import ClockedC.Parse.Program
import ClockedC.Process.Naming
import ClockedC.Proofs.PlainFunction
import ClockedC.Proofs.VariableNames

/-!
# When the names of a process clash

A variable is named after a declared name and the count of earlier declarations of it. The name that
results may be that of a parameter or of another local, since nothing keeps a source from using it:
next to `x` there may be an `x_v`. This file says exactly when that happens.

* `exists_of_variableName_eq`: where two declared names lead to one variable name, one of the two is
  itself a variable name of the other.
* `Function.NamesApart`: the variables differ from one another and from all names of the function.
* `Function.namesApart_iff`: this holds if and only if no parameter and no declared name is a name
  that some declared scalar leads to. That the variables differ from one another then follows.
-/

namespace ClockedC

/-! ## Variable names in two parts -/

/-- What stands before the count in the name of a variable. -/
def countFront (source : String) : List Char :=
  if hasVariableMark source then source.toList else source.toList ++ ['_', 'v']

/-- How the count is written in the name of a variable. -/
def countDigits (source : String) (ordinal : Nat) : List Char :=
  if hasVariableMark source then Nat.toDigits 10 ordinal else ordinalDigits ordinal

theorem toList_variableName_eq (source : String) (ordinal : Nat) :
    (variableName source ordinal).toList = countFront source ++ countDigits source ordinal := by
  unfold countFront countDigits
  by_cases hmark : hasVariableMark source = true
  · rw [if_pos hmark, if_pos hmark]
    unfold variableName
    rw [if_pos hmark, String.toList_append, Nat.toString_eq_repr, Nat.toList_repr]
  · rw [if_neg hmark, if_neg hmark]
    exact toList_variableName (Bool.eq_false_iff.mpr hmark) ordinal

theorem countDigits_of_pos (source : String) {ordinal : Nat} (h : 0 < ordinal) :
    countDigits source ordinal = Nat.toDigits 10 ordinal := by
  have hne : ordinal ≠ 0 := by omega
  unfold countDigits ordinalDigits
  rw [if_neg hne]
  split <;> rfl

theorem ofDigitChars_countDigits (source : String) (ordinal : Nat) :
    Nat.ofDigitChars 10 (countDigits source ordinal) 0 = ordinal := by
  unfold countDigits
  split
  · exact Nat.ofDigitChars_toDigits (by decide) (by decide)
  · exact ofDigitChars_ordinalDigits ordinal

theorem isDigit_of_mem_countDigits {source : String} {ordinal : Nat} {c : Char}
    (h : c ∈ countDigits source ordinal) : c.isDigit = true := by
  have hdigits : c ∈ Nat.toDigits 10 ordinal := by
    unfold countDigits ordinalDigits at h
    split at h
    · exact h
    · split at h
      · cases h
      · exact h
  exact Nat.isDigit_of_mem_toDigits (by decide) (by decide) hdigits

/-- Of one declared name, each count leads to a name of its own. -/
theorem variableName_right_inj {source : String} {i j : Nat}
    (h : variableName source i = variableName source j) : i = j := by
  have hlist := congrArg String.toList h
  rw [toList_variableName_eq, toList_variableName_eq] at hlist
  have hvalue := congrArg (Nat.ofDigitChars 10 · 0) (List.append_cancel_left hlist)
  simpa only [ofDigitChars_countDigits] using hvalue

/-! ## Equal variable names -/

/-- The front of a numeral is the numeral of a smaller number. -/
theorem exists_toDigits_of_append {n : Nat} {front back : List Char}
    (h : Nat.toDigits 10 n = front ++ back) (hfront : front ≠ []) (hback : back ≠ []) :
    ∃ g, 0 < g ∧ g < n ∧ front = Nat.toDigits 10 g := by
  -- The last digits are taken off one by one.
  induction n using Nat.strongRecOn generalizing back with
  | ind n ih =>
    obtain ⟨shorter, c, rfl⟩ : ∃ shorter c, back = shorter ++ [c] :=
      ⟨_, _, (List.dropLast_concat_getLast hback).symm⟩
    have hlen := congrArg List.length h
    have hpos := List.length_pos_iff.mpr hfront
    simp only [List.length_append, List.length_singleton] at hlen
    have hten : 10 ≤ n := by
      apply Nat.le_of_not_lt
      intro hlt
      rw [Nat.toDigits_of_lt_base hlt, List.length_singleton] at hlen
      omega
    rw [Nat.toDigits_of_base_le (by decide) hten, ← List.append_assoc] at h
    have hrest := List.append_inj_left' h rfl
    by_cases hnil : shorter = []
    · subst hnil
      rw [List.append_nil] at hrest
      exact ⟨n / 10, by omega, by omega, hrest.symm⟩
    · obtain ⟨g, hg, hlt, hdigits⟩ := ih (n / 10) (by omega) hrest hnil
      exact ⟨g, hg, by omega, hdigits⟩

/-- A name whose front goes beyond that of another by some digits bears the mark. -/
theorem hasVariableMark_of_countFront {m n : String} {more : List Char}
    (h : countFront n = countFront m ++ more) (hmore : more ≠ [])
    (hdigits : ∀ c ∈ more, c.isDigit = true) : hasVariableMark n = true := by
  apply Classical.byContradiction
  intro hmark
  have hn : countFront n = n.toList ++ ['_', 'v'] := if_neg hmark
  have hlast := congrArg List.getLast? (hn.symm.trans h)
  rw [List.getLast?_append, List.getLast?_append, List.getLast?_eq_some_getLast hmore] at hlast
  have hv : more.getLast hmore = 'v' := (Option.some.inj hlast).symm
  have hdigit := hdigits _ (List.getLast_mem hmore)
  rw [hv] at hdigit
  exact absurd hdigit (by decide)

/-- Where the longer of two fronts is that of `n`, the name `n` is a variable name of `m`. -/
theorem exists_of_countFront_append {m n : String} {i j : Nat} {more : List Char}
    (hfront : countFront n = countFront m ++ more)
    (hcount : countDigits m i = more ++ countDigits n j) (hmore : more ≠ []) :
    ∃ g < i, n = variableName m g := by
  have hdigits : ∀ c ∈ more, c.isDigit = true := by
    intro c hc
    have hmem : c ∈ countDigits m i := by
      rw [hcount]
      exact List.mem_append_left _ hc
    exact isDigit_of_mem_countDigits hmem
  have hmark := hasVariableMark_of_countFront hfront hmore hdigits
  have hn : countFront n = n.toList := if_pos hmark
  have hj : countDigits n j = Nat.toDigits 10 j := if_pos hmark
  have hi : 0 < i := by
    apply Nat.pos_of_ne_zero
    rintro rfl
    have hzero : (countDigits m 0).length ≤ 1 := by
      unfold countDigits ordinalDigits
      split <;> simp
    have hlen := congrArg List.length hcount
    have hpos := List.length_pos_iff.mpr hmore
    have hposj : 0 < (Nat.toDigits 10 j).length := Nat.length_toDigits_pos
    rw [List.length_append, hj] at hlen
    omega
  rw [countDigits_of_pos m hi, hj] at hcount
  obtain ⟨g, hg, hlt, hmoreDigits⟩ :=
    exists_toDigits_of_append hcount hmore Nat.toDigits_ne_nil
  refine ⟨g, hlt, String.ext ?_⟩
  rw [toList_variableName_eq, countDigits_of_pos m hg, ← hmoreDigits, ← hfront, hn]

/-- Names with the same front are equal, unless one of them bears the mark and is the first variable
name of the other. -/
theorem eq_or_of_countFront_eq {m n : String} {i j : Nat} (hfront : countFront m = countFront n)
    (hcount : countDigits m i = countDigits n j) :
    m = n ∨ (∃ g < i, n = variableName m g) ∨ ∃ g < j, m = variableName n g := by
  -- A marked name that has the front of an unmarked one is that front.
  have hmixed : ∀ {a b : String} {k l : Nat}, hasVariableMark a ≠ true → hasVariableMark b = true →
      countFront a = countFront b → countDigits a k = countDigits b l →
      ∃ g < k, b = variableName a g := by
    intro a b k l ha hb hab hkl
    have hzero : countDigits a 0 = [] := if_neg ha
    have hdigits : countDigits b l = Nat.toDigits 10 l := if_pos hb
    refine ⟨0, Nat.pos_of_ne_zero ?_, String.ext ?_⟩
    · rintro rfl
      rw [hzero, hdigits] at hkl
      exact Nat.toDigits_ne_nil hkl.symm
    · have hfrontb : countFront b = b.toList := if_pos hb
      rw [toList_variableName_eq, hzero, List.append_nil, hab, hfrontb]
  by_cases hm : hasVariableMark m = true <;> by_cases hn : hasVariableMark n = true
  · have hlist : m.toList = n.toList := by
      simpa only [countFront, if_pos hm, if_pos hn] using hfront
    exact .inl (String.ext hlist)
  · exact .inr (.inr (hmixed hn hm hfront.symm hcount.symm))
  · exact .inr (.inl (hmixed hm hn hfront hcount))
  · have hlist : m.toList ++ ['_', 'v'] = n.toList ++ ['_', 'v'] := by
      simpa only [countFront, if_neg hm, if_neg hn] using hfront
    exact .inl (String.ext (List.append_cancel_right hlist))

/-- **Clashing variables are named after each other.** Where two declared names lead to the same
variable name, one of them is a variable name of the other, for a lower count. -/
theorem exists_of_variableName_eq {m n : String} {i j : Nat} (hne : m ≠ n)
    (h : variableName m i = variableName n j) :
    (∃ g < i, n = variableName m g) ∨ ∃ g < j, m = variableName n g := by
  have hlist := congrArg String.toList h
  rw [toList_variableName_eq, toList_variableName_eq] at hlist
  rcases List.append_eq_append_iff.mp hlist with ⟨more, hfront, hcount⟩ | ⟨more, hfront, hcount⟩
  · by_cases hmore : more = []
    · subst hmore
      rw [List.append_nil] at hfront
      exact (eq_or_of_countFront_eq hfront.symm hcount).resolve_left hne
    · exact .inl (exists_of_countFront_append hfront hcount hmore)
  · by_cases hmore : more = []
    · subst hmore
      rw [List.append_nil] at hfront
      exact (eq_or_of_countFront_eq hfront hcount.symm).resolve_left hne
    · exact .inr (exists_of_countFront_append hfront hcount hmore)

/-! ## The variables of a function -/

/-- How many of some declarations have a variable that is named after `n`. -/
def variableCount (ds : List Declaration) (n : String) : Nat :=
  ((ds.filter Declaration.hasVariable).map Declaration.name).count n

namespace Function

variable (f : Function)

/-- The counts of the variables of a name run from that of the earlier declarations on. -/
theorem exists_mem_variablesOf {earlier : List String} {ds : List Declaration} {n : String}
    {k : Nat} :
    (∃ v, some v ∈ f.variablesOf earlier ds ∧ v.source = n ∧ v.ordinal = k) ↔
      earlier.count n ≤ k ∧ k < earlier.count n + variableCount ds n := by
  induction ds generalizing earlier with
  | nil =>
    constructor
    · rintro ⟨v, hv, -⟩
      cases hv
    · rintro ⟨hle, hlt⟩
      exact absurd hlt (Nat.not_lt.mpr hle)
  | cons d ds ih =>
    rw [variablesOf]
    by_cases hd : d.hasVariable = true
    · have hcount : variableCount (d :: ds) n =
          variableCount ds n + if d.name == n then 1 else 0 := by
        rw [variableCount, List.filter_cons_of_pos hd, List.map_cons, List.count_cons]
        rfl
      rw [if_pos hd, hcount]
      simp only [List.mem_cons, Option.some.injEq, or_and_right, exists_or, exists_eq_left, ih,
        List.count_cons]
      by_cases hname : d.name = n
      · simp only [hname, beq_self_eq_true, if_true, true_and]
        omega
      · simp only [hname, false_and, false_or, beq_iff_eq, if_false]
        omega
    · have hcount : variableCount (d :: ds) n = variableCount ds n := by
        rw [variableCount, List.filter_cons_of_neg hd]
        rfl
      rw [if_neg hd, hcount]
      simp only [List.mem_cons, reduceCtorEq, false_or, ih]

theorem exists_mem_declaredVariables {n : String} {k : Nat} :
    (∃ v, some v ∈ f.declaredVariables ∧ v.source = n ∧ v.ordinal = k) ↔
      k < variableCount f.declarations n := by
  unfold declaredVariables
  rw [exists_mem_variablesOf, List.count_nil, Nat.zero_add]
  exact and_iff_right (Nat.zero_le k)

/-- The names that the source gives to the parameters and locals of a function. -/
def ownNames : List String := f.paramNames ++ f.declarations.map Declaration.name

/-- In the process of a function every name stands for one object: the variables differ from one
another, and none is named like a parameter or like a scalar or an array that is declared. -/
structure NamesApart : Prop where
  distinct : ((Naming.ofFunction f).allVariables.map ProcessVariable.name).Nodup
  fresh : ∀ v ∈ (Naming.ofFunction f).allVariables, v.name ∉ f.ownNames

instance : Decidable f.NamesApart :=
  decidable_of_iff
    (((Naming.ofFunction f).allVariables.map ProcessVariable.name).Nodup ∧
      ∀ v ∈ (Naming.ofFunction f).allVariables, v.name ∉ f.ownNames)
    ⟨fun h => ⟨h.1, h.2⟩, fun h => ⟨h.distinct, h.fresh⟩⟩

theorem mem_allVariables {v : ProcessVariable} :
    v ∈ (Naming.ofFunction f).allVariables ↔ some v ∈ f.declaredVariables := by
  unfold Naming.allVariables Naming.ofFunction
  simp only [List.mem_filterMap, id, exists_eq_right]

theorem mem_ownNames_of_mem {v : ProcessVariable} (h : some v ∈ f.declaredVariables) :
    v.source ∈ f.ownNames := by
  obtain ⟨d, hd, -, hname⟩ := (f.holds_of_mem h).declared
  rw [← hname]
  exact List.mem_append_right _ (List.mem_map_of_mem hd)

/-- Of two variables with the same name, the declared name of one is a variable name of the
other. -/
theorem exists_ownName_of_name_eq {v w : ProcessVariable} (hv : some v ∈ f.declaredVariables)
    (hw : some w ∈ f.declaredVariables) (hne : v.source ≠ w.source) (h : v.name = w.name) :
    ∃ u ∈ f.ownNames, ∃ n k, k < variableCount f.declarations n ∧ u = variableName n k := by
  have hvCount := f.exists_mem_declaredVariables.mp ⟨v, hv, rfl, rfl⟩
  have hwCount := f.exists_mem_declaredVariables.mp ⟨w, hw, rfl, rfl⟩
  rw [(f.holds_of_mem hv).named, (f.holds_of_mem hw).named] at h
  rcases exists_of_variableName_eq hne h with ⟨g, hg, hname⟩ | ⟨g, hg, hname⟩
  · exact ⟨w.source, f.mem_ownNames_of_mem hw, v.source, g, by omega, hname⟩
  · exact ⟨v.source, f.mem_ownNames_of_mem hv, w.source, g, by omega, hname⟩

/-- **When names clash.** The variables of a function differ from one another and from all names
that its source declares if and only if no parameter and no declared name is one that the rule for
variable names makes of a scalar, at one of the counts at which that scalar is declared. -/
theorem namesApart_iff :
    f.NamesApart ↔ ∀ u ∈ f.ownNames, ∀ n k, k < variableCount f.declarations n →
      u ≠ variableName n k := by
  constructor
  · rintro h u hu n k hk rfl
    obtain ⟨v, hv, rfl, rfl⟩ := f.exists_mem_declaredVariables.mpr hk
    apply h.fresh v (f.mem_allVariables.mpr hv)
    rw [(f.holds_of_mem hv).named]
    exact hu
  · intro h
    constructor
    · unfold List.Nodup Naming.allVariables Naming.ofFunction
      rw [List.pairwise_map, List.pairwise_filterMap]
      refine List.Pairwise.imp_of_mem ?_ (f.variablesOf_ordered [] f.declarations)
      rintro o o' ho ho' hordered v rfl w rfl heq
      by_cases hsource : v.source = w.source
      · have hlt := hordered v rfl w rfl hsource
        rw [(f.holds_of_mem ho).named, (f.holds_of_mem ho').named, hsource] at heq
        have hsame := variableName_right_inj heq
        omega
      · obtain ⟨u, hu, n, k, hk, hname⟩ := f.exists_ownName_of_name_eq ho ho' hsource heq
        exact h u hu n k hk hname
    · intro v hv hmem
      rw [f.mem_allVariables] at hv
      have hk := f.exists_mem_declaredVariables.mp ⟨v, hv, rfl, rfl⟩
      exact h v.name hmem v.source v.ordinal hk (f.holds_of_mem hv).named

end Function

/-- Names do clash: in the first function the variable of `x` is named like the parameter `x_v`, and
in the second, `x` and `x_v` each have a variable `x_v1`. -/
theorem variable_named_twice :
    (∃ f, (Program.ofSource "int f(int x_v) { int x = 1; return x_v; }").outcome = .ok ⟨[f]⟩ ∧
      ∃ v ∈ (Naming.ofFunction f).allVariables, v.name ∈ f.paramNames) ∧
    ∃ f, (Program.ofSource
        "int f() { int x = 1; { int x = 2; } int x_v = 3; { int x_v = 4; } return x; }").outcome =
        .ok ⟨[f]⟩ ∧
      ¬ ((Naming.ofFunction f).allVariables.map ProcessVariable.name).Nodup := by
  constructor
  · refine ⟨⟨"f", .int, [⟨.int, "x_v"⟩],
      [.declare ⟨"x", .int, .scalar (some (.number "1")), ⟨1, 18⟩⟩,
        .ret (some (.name "x_v")) ⟨1, 29⟩], ⟨1, 5⟩⟩, by with_unfolding_all rfl, ?_⟩
    exact ⟨⟨"x", "x_v", .int, 0, false⟩, by decide, by decide⟩
  · refine ⟨⟨"f", .int, [],
      [.declare ⟨"x", .int, .scalar (some (.number "1")), ⟨1, 11⟩⟩,
        .declare ⟨"x", .int, .scalar (some (.number "2")), ⟨1, 24⟩⟩,
        .declare ⟨"x_v", .int, .scalar (some (.number "3")), ⟨1, 37⟩⟩,
        .declare ⟨"x_v", .int, .scalar (some (.number "4")), ⟨1, 52⟩⟩,
        .ret (some (.name "x")) ⟨1, 67⟩], ⟨1, 5⟩⟩, by with_unfolding_all rfl, by decide⟩

end ClockedC
