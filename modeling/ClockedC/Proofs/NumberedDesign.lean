import ClockedC.Proofs.CallNumbers

/-!
# Numbering calls early or late

The calls of a program get their unit numbers once it has been read, or else when it is written: a
function that still has a call without a number is then written with numbers for all of its calls.
This file shows that it makes no difference which of the two happens.

* `Expr.Numbered` says that all calls in an expression have a number.
* `Block.numberCalls_eq_self` and `Function.numberCalls_eq_self`: what is numbered stays as it is.
* `Function.hasUnnumberedCall_numberCallsFrom`: no call is left without a number.
* `Program.signature?_numberCalls`: callers see the same of each function.
* `Program.designEvents_numberCalls`: the design is written in the same way.
-/

namespace ClockedC

variable {κ : Type} [Counter κ]

/-! ## Numbered expressions -/

namespace Expr

/-- All calls in an expression have a unit number. -/
def Numbered (e : Expr) : Prop :=
  ∀ c ∈ e.calls, c.unit ≠ none

/-- All calls in a list of expressions have a unit number. -/
def AllNumbered (es : List Expr) : Prop :=
  ∀ e ∈ es, e.Numbered

theorem allNumbered_cons {e : Expr} {es : List Expr} :
    AllNumbered (e :: es) ↔ e.Numbered ∧ AllNumbered es :=
  List.forall_mem_cons

theorem allNumbered_append {es es' : List Expr} :
    AllNumbered (es ++ es') ↔ AllNumbered es ∧ AllNumbered es' :=
  List.forall_mem_append

theorem numbered_call {callee : String} {args : List Expr} {unit : Option Nat} {p : Position} :
    (call callee args unit p).Numbered ↔ unit ≠ none ∧ AllNumbered args := by
  rw [Numbered, calls, List.forall_mem_cons, callsOfList_eq_flatMap, List.forall_mem_flatMap]
  rfl

theorem numbered_binary {op : BinaryOp} {left right : Expr} :
    (binary op left right).Numbered ↔ left.Numbered ∧ right.Numbered :=
  List.forall_mem_append

mutual

theorem numberCalls_eq_self : ∀ {e : Expr}, e.Numbered → ∀ next : κ, e.numberCalls next = (e, next)
  | number _, _, _ | name _, _, _ => rfl
  | element base index text, h, next => by
    rw [numberCalls, numberCalls_eq_self (e := index) h next]
  | call callee args none p, h, next => absurd rfl (numbered_call.1 h).1
  | call callee args (some n) p, h, next => by
    rw [numberCalls]
    dsimp only
    rw [numberCallsOfList_eq_self (numbered_call.1 h).2 next]
  | unary op operand, h, next => by
    rw [numberCalls, numberCalls_eq_self (e := operand) h next]
  | binary op left right, h, next => by
    obtain ⟨hleft, hright⟩ := numbered_binary.1 h
    rw [numberCalls, numberCalls_eq_self hleft next]
    dsimp only
    rw [numberCalls_eq_self hright next]

theorem numberCallsOfList_eq_self :
    ∀ {es : List Expr}, AllNumbered es → ∀ next : κ, numberCallsOfList next es = (es, next)
  | [], _, _ => rfl
  | e :: es, h, next => by
    obtain ⟨he, hes⟩ := allNumbered_cons.1 h
    rw [numberCallsOfList, numberCalls_eq_self he next]
    dsimp only
    rw [numberCallsOfList_eq_self hes next]

end

end Expr

/-! ## Numbered statements -/

open ClockedC.Expr (AllNumbered allNumbered_cons allNumbered_append)

theorem Declaration.numberCalls_eq_self {d : Declaration} (h : AllNumbered d.expressions)
    (next : κ) : d.numberCalls next = (d, next) := by
  obtain ⟨name, type, form, position⟩ := d
  rcases form with (_ | e) | _
  · rfl
  · have he : e.Numbered := (allNumbered_cons.1 h).1
    rw [numberCalls]
    dsimp only
    rw [Expr.numberCalls_eq_self he next]
  · rfl

theorem Target.numberCalls_eq_self {t : Target} (h : AllNumbered t.expressions) (next : κ) :
    t.numberCalls next = (t, next) := by
  cases t with
  | name n => rfl
  | element base index text =>
    rw [numberCalls, Expr.numberCalls_eq_self (allNumbered_cons.1 h).1 next]

theorem Assignment.numberCalls_eq_self {a : Assignment} (h : AllNumbered a.expressions)
    (next : κ) : a.numberCalls next = (a, next) := by
  obtain ⟨htarget, hvalue⟩ := allNumbered_append.1 h
  rw [numberCalls, Target.numberCalls_eq_self htarget next]
  dsimp only
  rw [Expr.numberCalls_eq_self (allNumbered_cons.1 hvalue).1 next]

theorem ForStart.numberCalls_eq_self {s : ForStart} (h : AllNumbered s.expressions) (next : κ) :
    s.numberCalls next = (s, next) := by
  cases s with
  | declare d => rw [numberCalls, Declaration.numberCalls_eq_self h next]
  | assign a => rw [numberCalls, Assignment.numberCalls_eq_self h next]

omit [Counter κ] in
theorem numberCallsOfOption_eq_self {α : Type} {number : κ → α → α × κ} {o : Option α}
    {next : κ} (h : ∀ a ∈ o, number next a = (a, next)) :
    numberCallsOfOption number next o = (o, next) := by
  cases o with
  | none => rfl
  | some a => rw [numberCallsOfOption, h a rfl]

/-- What may be absent has no expressions then. -/
theorem allNumbered_getD {α : Type} {expressions : α → List Expr} {o : Option α}
    (h : AllNumbered ((o.map expressions).getD [])) : ∀ a ∈ o, AllNumbered (expressions a) := by
  rintro a rfl
  exact h

mutual

theorem Stmt.numberCalls_eq_self :
    ∀ {s : Stmt}, AllNumbered s.expressions → ∀ next : κ, s.numberCalls next = (s, next)
  | .declare d, h, next => by rw [Stmt.numberCalls, d.numberCalls_eq_self h next]
  | .assign a, h, next => by rw [Stmt.numberCalls, a.numberCalls_eq_self h next]
  | .ret value _, h, next => by
    rw [Stmt.numberCalls, numberCallsOfOption_eq_self]
    intro e he
    exact Expr.numberCalls_eq_self (h e (Option.mem_toList.2 he)) next
  | .branch condition body otherwise _, h, next => by
    obtain ⟨hbody, hotherwise⟩ := allNumbered_append.1 h
    obtain ⟨hcondition, hbody⟩ := allNumbered_cons.1 hbody
    simp only [Stmt.numberCalls, Expr.numberCalls_eq_self hcondition,
      Block.numberCalls_eq_self hbody, Alternative.numberCalls_eq_self hotherwise]
  | .whileLoop condition body _, h, next => by
    obtain ⟨hcondition, hbody⟩ := allNumbered_cons.1 h
    simp only [Stmt.numberCalls, Expr.numberCalls_eq_self hcondition,
      Block.numberCalls_eq_self hbody]
  | .forLoop init condition body increment _, h, next => by
    obtain ⟨hfirst, hincrement⟩ := allNumbered_append.1 h
    obtain ⟨hinit, hrest⟩ := allNumbered_append.1 hfirst
    obtain ⟨hcondition, hbody⟩ := allNumbered_cons.1 hrest
    have hstart : numberCallsOfOption ForStart.numberCalls next init = (init, next) :=
      numberCallsOfOption_eq_self fun s hs =>
        ForStart.numberCalls_eq_self (allNumbered_getD hinit s hs) next
    have hstep : numberCallsOfOption Assignment.numberCalls next increment = (increment, next) :=
      numberCallsOfOption_eq_self fun a ha =>
        Assignment.numberCalls_eq_self (allNumbered_getD hincrement a ha) next
    simp only [Stmt.numberCalls, hstart, Expr.numberCalls_eq_self hcondition,
      Block.numberCalls_eq_self hbody, hstep]
  | .jump .., _, _ => rfl

theorem Alternative.numberCalls_eq_self :
    ∀ {a : Alternative}, AllNumbered a.expressions → ∀ next : κ, a.numberCalls next = (a, next)
  | .none, _, _ => rfl
  | .body body, h, next => by
    rw [Alternative.numberCalls, @Block.numberCalls_eq_self body h next]
  | .branch condition body otherwise _, h, next => by
    obtain ⟨hbody, hotherwise⟩ := allNumbered_append.1 h
    obtain ⟨hcondition, hbody⟩ := allNumbered_cons.1 hbody
    simp only [Alternative.numberCalls, Expr.numberCalls_eq_self hcondition,
      Block.numberCalls_eq_self hbody, Alternative.numberCalls_eq_self hotherwise]

/-- A body in which all calls are numbered stays as it is. -/
theorem Block.numberCalls_eq_self :
    ∀ {ss : List Stmt}, AllNumbered (Block.expressions ss) →
      ∀ next : κ, Block.numberCalls next ss = (ss, next)
  | [], _, _ => rfl
  | s :: ss, h, next => by
    obtain ⟨hs, hss⟩ := allNumbered_append.1 h
    simp only [Block.numberCalls, Stmt.numberCalls_eq_self hs, Block.numberCalls_eq_self hss]

end

/-! ## Numbered functions -/

namespace Function

variable {f : Function}

theorem hasUnnumberedCall_eq_false_iff :
    f.hasUnnumberedCall = false ↔ AllNumbered (Block.expressions f.body) := by
  rw [hasUnnumberedCall, calls, List.any_eq_false, List.forall_mem_flatMap]
  simp only [AllNumbered, Expr.Numbered, Option.isNone_iff_eq_none]

theorem numberCallsFrom_eq_self (h : f.hasUnnumberedCall = false) (first : κ) :
    f.numberCallsFrom first = (f, first) := by
  rw [numberCallsFrom, Block.numberCalls_eq_self (hasUnnumberedCall_eq_false_iff.1 h)]

theorem numberCalls_eq_self (h : f.hasUnnumberedCall = false) : f.numberCalls.1 = f :=
  congrArg Prod.fst (numberCallsFrom_eq_self h f.firstFreeUnit)

/-- A function is written with all of its calls numbered. -/
theorem numbered_eq_numberCalls (f : Function) : f.numbered = f.numberCalls.1 := by
  unfold numbered
  cases h : f.hasUnnumberedCall with
  | true => rfl
  | false => exact (numberCalls_eq_self h).symm

end Function

theorem none_not_mem_assignUnits (next : κ) (us : List (Option Nat)) :
    none ∉ assignUnits next us := by
  induction us generalizing next with
  | nil => exact List.not_mem_nil
  | cons u us ih =>
    cases u with
    | some n => simpa [assignUnits] using ih next
    | none => simpa [assignUnits] using ih (Counter.next next)

namespace Function

/-- Numbering the calls of a function leaves no call without a number. -/
theorem hasUnnumberedCall_numberCallsFrom (f : Function) (first : κ) :
    (f.numberCallsFrom first).1.hasUnnumberedCall = false := by
  rw [hasUnnumberedCall, List.any_eq_false]
  intro c hc hnone
  have hmem : c.unit ∈ (f.numberCallsFrom first).1.calls.map Call.unit := List.mem_map_of_mem hc
  rw [units_numberCallsFrom, Option.isNone_iff_eq_none.1 hnone] at hmem
  exact none_not_mem_assignUnits _ _ hmem

theorem hasUnnumberedCall_numberCalls (f : Function) :
    f.numberCalls.1.hasUnnumberedCall = false :=
  f.hasUnnumberedCall_numberCallsFrom f.firstFreeUnit

/-- It does not matter whether the calls of a function are numbered before it is written. -/
theorem numbered_numberCalls (f : Function) : f.numberCalls.1.numbered = f.numbered := by
  have hdone : f.numberCalls.1.numbered = f.numberCalls.1 := by
    rw [numbered, f.hasUnnumberedCall_numberCalls]
    rfl
  rw [hdone]
  cases h : f.hasUnnumberedCall with
  | true => rw [numbered, if_pos h]
  | false =>
    rw [numbered, h, numberCalls_eq_self h]
    rfl

end Function

/-! ## Numbered programs -/

namespace Program

/-- Callers see nothing of the numbers inside of a function. -/
theorem signature?_numberCalls (p : Program) : p.numberCalls.signature? = p.signature? := by
  funext name
  rw [signature?, signature?, numberCalls, ← List.map_reverse, List.find?_map, Option.map_map]
  rfl

theorem functionEvents_numberCalls (preamble : Preamble) (p : Program) (f : Function) :
    p.numberCalls.functionEvents preamble f.numberCalls.1 = p.functionEvents preamble f := by
  rw [functionEvents, functionEvents, f.numbered_numberCalls, p.signature?_numberCalls]
  rfl

/-- **Calls may be numbered early or late.** A program whose calls are numbered has no call without
a number, and its design is written line by line as that of the program before, with the same
notices at the same places. This holds however many calls had a number already, and if two of them
had the same. -/
theorem designEvents_numberCalls (p : Program) (preamble : Preamble) :
    (∀ f ∈ p.numberCalls.functions, f.hasUnnumberedCall = false) ∧
    p.numberCalls.designEvents preamble = p.designEvents preamble := by
  constructor
  · intro f hf
    obtain ⟨g, -, rfl⟩ := List.mem_map.1 hf
    exact g.hasUnnumberedCall_numberCalls
  · have hfunctions : p.numberCalls.functions.flatMap (p.numberCalls.functionEvents preamble) =
        p.functions.flatMap (p.functionEvents preamble) := by
      rw [numberCalls, List.flatMap_map]
      exact congrArg (p.functions.flatMap ·) (funext (p.functionEvents_numberCalls preamble))
    rw [designEvents, designEvents, hfunctions]

end Program

end ClockedC
