import ClockedC.Process.Variable

/-!
# Names of process variables

The name of a variable is made from the declared name and the count of earlier declarations of it.
A declared name that does not bear the mark of a variable itself can be read back from it, and so
can the count.

* `hasVariableMark_variableName`: the name of a variable bears the mark.
* `variableName_inj`: names made from unmarked names differ if the names or the counts do.
* `Function.variablesOf_ordered`: of two variables of a name the later has the higher count.
* `Function.name_ne_of_mem_take`: a variable is named differently from all earlier ones.
-/

namespace ClockedC

/-! ## Marks -/

/-- The characters of a name from the last that is no digit back to the first. -/
def stem (name : String) : List Char := name.toList.reverse.dropWhile Char.isDigit

theorem hasVariableMark_eq (name : String) :
    hasVariableMark name = ['v', '_'].isPrefixOf (stem name) := rfl

theorem stem_append_of_isDigit (name digits : String)
    (h : ∀ c ∈ digits.toList, c.isDigit = true) : stem (name ++ digits) = stem name := by
  have hdigits : ∀ c ∈ digits.toList.reverse, c.isDigit = true := by
    intro c hc
    exact h c (List.mem_reverse.mp hc)
  unfold stem
  rw [String.toList_append, List.reverse_append, List.dropWhile_append_of_pos hdigits]

theorem stem_append_toString (name : String) (n : Nat) : stem (name ++ toString n) = stem name := by
  apply stem_append_of_isDigit
  intro c hc
  rw [Nat.toString_eq_repr, Nat.toList_repr] at hc
  exact Nat.isDigit_of_mem_toDigits (by decide) (by decide) hc

theorem stem_append_mark (name : String) :
    stem (name ++ "_v") = 'v' :: '_' :: name.toList.reverse := by
  unfold stem
  rw [String.toList_append, List.reverse_append]
  rfl

theorem stem_variableName (source : String) (ordinal : Nat) :
    stem (variableName source ordinal) =
      if hasVariableMark source then stem source else 'v' :: '_' :: source.toList.reverse := by
  unfold variableName
  by_cases hmark : hasVariableMark source = true
  · rw [if_pos hmark, if_pos hmark, stem_append_toString]
  · rw [if_neg hmark, if_neg hmark]
    by_cases hzero : ordinal = 0
    · rw [if_pos hzero, stem_append_mark]
    · rw [if_neg hzero, stem_append_toString, stem_append_mark]

theorem hasVariableMark_variableName (source : String) (ordinal : Nat) :
    hasVariableMark (variableName source ordinal) = true := by
  rw [hasVariableMark_eq, stem_variableName]
  split
  · assumption
  · rfl

/-! ## Counts -/

/-- How the count of earlier declarations is written. None at all is not written. -/
def ordinalDigits (ordinal : Nat) : List Char :=
  if ordinal = 0 then [] else Nat.toDigits 10 ordinal

theorem ofDigitChars_ordinalDigits (ordinal : Nat) :
    Nat.ofDigitChars 10 (ordinalDigits ordinal) 0 = ordinal := by
  unfold ordinalDigits
  by_cases hzero : ordinal = 0
  · rw [if_pos hzero, hzero]
    rfl
  · rw [if_neg hzero, Nat.ofDigitChars_toDigits (by decide) (by decide)]

theorem toList_variableName {source : String} (h : hasVariableMark source = false) (ordinal : Nat) :
    (variableName source ordinal).toList =
      source.toList ++ ['_', 'v'] ++ ordinalDigits ordinal := by
  have hmark : "_v".toList = ['_', 'v'] := by decide
  unfold variableName ordinalDigits
  rw [h, if_neg Bool.false_ne_true]
  by_cases hzero : ordinal = 0
  · rw [if_pos hzero, if_pos hzero, String.toList_append, hmark, List.append_nil]
  · rw [if_neg hzero, if_neg hzero, String.toList_append, String.toList_append, hmark,
      Nat.toString_eq_repr, Nat.toList_repr]

theorem variableName_inj {source source' : String} {ordinal ordinal' : Nat}
    (h : hasVariableMark source = false) (h' : hasVariableMark source' = false)
    (heq : variableName source ordinal = variableName source' ordinal') :
    source = source' ∧ ordinal = ordinal' := by
  have hstem := congrArg stem heq
  rw [stem_variableName, stem_variableName, h, h', if_neg Bool.false_ne_true,
    if_neg Bool.false_ne_true, List.cons.injEq, List.cons.injEq] at hstem
  have hsource : source = source' := String.ext (List.reverse_inj.mp hstem.2.2)
  subst hsource
  have hdigits := congrArg String.toList heq
  rw [toList_variableName h, toList_variableName h] at hdigits
  have hordinal := congrArg (Nat.ofDigitChars 10 · 0) (List.append_cancel_left hdigits)
  simp only [ofDigitChars_ordinalDigits] at hordinal
  exact ⟨rfl, hordinal⟩

/-! ## Variables of a function -/

namespace Function

variable (f : Function)

/-- What the variable of a declaration is, given the names of the earlier declarations. -/
structure Holds (earlier : List String) (ds : List Declaration) (v : ProcessVariable) : Prop where
  declared : ∃ d ∈ ds, d.hasVariable = true ∧ d.name = v.source
  named : v.name = variableName v.source v.ordinal
  hidesParam : v.hidesParam = f.hasParam v.source
  counted : earlier.count v.source ≤ v.ordinal

theorem holds_of_mem {earlier : List String} {ds : List Declaration} {v : ProcessVariable}
    (h : some v ∈ f.variablesOf earlier ds) : f.Holds earlier ds v := by
  induction ds generalizing earlier with
  | nil => cases h
  | cons d ds ih =>
    rw [variablesOf] at h
    by_cases hd : d.hasVariable = true
    · rw [if_pos hd] at h
      rcases List.mem_cons.mp h with heq | hmem
      · cases heq
        exact ⟨⟨d, List.mem_cons_self, hd, rfl⟩, rfl, rfl, Nat.le_refl _⟩
      · obtain ⟨⟨d', hd', hvar, hname⟩, named, hides, counted⟩ := ih hmem
        have hcount := List.count_le_count_cons (a := v.source) (b := d.name) (l := earlier)
        exact ⟨⟨d', List.mem_cons_of_mem _ hd', hvar, hname⟩, named, hides, by omega⟩
    · rw [if_neg hd] at h
      rcases List.mem_cons.mp h with heq | hmem
      · cases heq
      · obtain ⟨⟨d', hd', hvar, hname⟩, named, hides, counted⟩ := ih hmem
        exact ⟨⟨d', List.mem_cons_of_mem _ hd', hvar, hname⟩, named, hides, counted⟩

theorem variablesOf_ordered (earlier : List String) (ds : List Declaration) :
    (f.variablesOf earlier ds).Pairwise fun o o' =>
      ∀ v ∈ o, ∀ w ∈ o', v.source = w.source → v.ordinal < w.ordinal := by
  induction ds generalizing earlier with
  | nil => exact .nil
  | cons d ds ih =>
    rw [variablesOf]
    by_cases hd : d.hasVariable = true
    · rw [if_pos hd]
      refine .cons ?_ (ih _)
      intro o ho v hv w hw hsource
      cases hv
      cases hw
      -- A later variable counts this declaration among the earlier ones.
      have hcount := (f.holds_of_mem ho).counted
      rw [← hsource, List.count_cons_self] at hcount
      exact hcount
    · rw [if_neg hd]
      refine .cons ?_ (ih _)
      intro o ho v hv
      cases hv

theorem declaration_of_getElem? {earlier : List String} {ds : List Declaration} {i : Nat}
    {v : ProcessVariable} (h : (f.variablesOf earlier ds)[i]? = some (some v)) :
    ∃ d, ds[i]? = some d ∧ d.name = v.source := by
  induction ds generalizing earlier i with
  | nil => cases h
  | cons d ds ih =>
    rw [variablesOf] at h
    cases i with
    | zero =>
      split at h
      · cases h
        exact ⟨d, rfl, rfl⟩
      · cases h
    | succ i =>
      rw [List.getElem?_cons_succ]
      split at h <;> exact ih h

theorem exists_variablesOf_eq {earlier : List String} {ds : List Declaration} {i : Nat}
    {d : Declaration} (hi : ds[i]? = some d) (hd : d.hasVariable = true) :
    ∃ v, (f.variablesOf earlier ds)[i]? = some (some v) ∧ v.source = d.name := by
  induction ds generalizing earlier i with
  | nil => cases hi
  | cons d' ds ih =>
    rw [variablesOf]
    cases i with
    | zero =>
      cases hi
      rw [if_pos hd]
      exact ⟨_, rfl, rfl⟩
    | succ i =>
      rw [List.getElem?_cons_succ] at hi
      split <;> rw [List.getElem?_cons_succ] <;> exact ih hi

theorem name_ne_of_mem_take {i : Nat} {v w : ProcessVariable}
    (unmarked : ∀ d ∈ f.declarations, hasVariableMark d.name = false)
    (hv : f.declaredVariables[i]? = some (some v)) (hw : some w ∈ f.declaredVariables.take i) :
    w.name ≠ v.name := by
  obtain ⟨⟨d, hd, -, hsource⟩, hname, -⟩ := f.holds_of_mem (List.mem_of_getElem? hv)
  obtain ⟨⟨d', hd', -, hsource'⟩, hname', -⟩ := f.holds_of_mem (List.mem_of_mem_take hw)
  intro heq
  rw [hname, hname'] at heq
  have hinj := variableName_inj (hsource' ▸ unmarked d' hd') (hsource ▸ unmarked d hd) heq
  obtain ⟨j, hj, hget⟩ := List.mem_take_iff_getElem.mp hw
  obtain ⟨hi, hget'⟩ := List.getElem?_eq_some_iff.mp hv
  have hordered : f.declaredVariables.Pairwise _ := f.variablesOf_ordered [] f.declarations
  have hlt := List.pairwise_iff_getElem.mp hordered j i (by omega) hi (by omega) w hget v hget'
    hinj.1
  omega

end Function

end ClockedC
