import ClockedC.Proofs.Moves

/-!
# The numbers of calls

Unit numbers are given along the statements of a body. The numbers are the same as if all
expressions of the body were gone through one after the other.

* `assignUnits` gives numbers to those that have none, and `Expr.units_numberCalls` says that the
  calls of an expression are numbered so.
* `Block.moves_numberCalls`: numbering the calls of a body numbers those of its moves.
* `Function.units_numberCallsFrom`: the numbers of the calls of a function.
* `Function.units_numberCalls_of_none`: where no call has a number, the numbers count the calls.
-/

namespace ClockedC

variable {κ : Type} [Counter κ]

/-! ## Giving numbers -/

/-- The counter after a count of numbers is given. -/
def Counter.after (c : κ) : Nat → κ
  | 0 => c
  | n + 1 => after (next c) n

theorem Counter.after_add (c : κ) (m n : Nat) : after c (m + n) = after (after c m) n := by
  induction m generalizing c with
  | zero => rw [Nat.zero_add, after]
  | succ m ih => rw [Nat.succ_add, after, after, ih]

@[simp]
theorem Counter.number_nat (n : Nat) : number n = n := rfl

@[simp]
theorem Counter.next_nat (n : Nat) : next n = n + 1 := rfl

@[simp]
theorem Counter.after_nat (n k : Nat) : after n k = n + k := by
  induction k generalizing n with
  | zero => rfl
  | succ k ih => rw [after, ih, next_nat, Nat.add_assoc, Nat.add_comm 1]

/-- Gives numbers from `next` on to those that have none. -/
def assignUnits : (next : κ) → List (Option Nat) → List (Option Nat)
  | _, [] => []
  | next, some n :: us => some n :: assignUnits next us
  | next, none :: us => some (Counter.number next) :: assignUnits (Counter.next next) us

theorem count_some_cons (n : Nat) (us : List (Option Nat)) :
    (some n :: us).count none = us.count none :=
  List.count_cons_of_ne (by simp)

theorem assignUnits_append (next : κ) (us us' : List (Option Nat)) :
    assignUnits next (us ++ us') =
      assignUnits next us ++ assignUnits (Counter.after next (us.count none)) us' := by
  induction us generalizing next with
  | nil => rfl
  | cons u us ih =>
    cases u with
    | some n =>
      rw [List.cons_append, assignUnits, ih, assignUnits, count_some_cons, List.cons_append]
    | none =>
      rw [List.cons_append, assignUnits, ih, assignUnits, List.count_cons_self, Counter.after,
        List.cons_append]

theorem assignUnits_replicate (next n : Nat) :
    assignUnits next (List.replicate n none) = (List.range' next n).map some := by
  induction n generalizing next with
  | zero => rfl
  | succ n ih =>
    rw [List.replicate_succ, assignUnits, Counter.next_nat, ih, List.range'_succ, List.map_cons,
      Counter.number_nat]

/-! ## Expressions -/

namespace Expr

/-- The unit numbers of the calls in an expression. -/
def units (e : Expr) : List (Option Nat) :=
  e.calls.map Call.unit

/-- The unit numbers of the calls in a list of expressions. -/
def unitsOfList (es : List Expr) : List (Option Nat) :=
  (callsOfList es).map Call.unit

theorem callsOfList_eq_flatMap (es : List Expr) : callsOfList es = es.flatMap calls := by
  induction es with
  | nil => rfl
  | cons e es ih => rw [callsOfList, List.flatMap_cons, ih]

theorem unitsOfList_cons (e : Expr) (es : List Expr) :
    unitsOfList (e :: es) = e.units ++ unitsOfList es :=
  List.map_append

theorem units_binary (op : BinaryOp) (left right : Expr) :
    (binary op left right).units = left.units ++ right.units :=
  List.map_append

mutual

theorem numberCalls_snd : ∀ (e : Expr) (next : κ),
    (e.numberCalls next).2 = Counter.after next (e.units.count none)
  | number _, _ | name _, _ => rfl
  | element _ index _, next => numberCalls_snd index next
  | call _ args (some n) _, next => by
    have hcount := count_some_cons n (unitsOfList args)
    exact (numberCallsOfList_snd args next).trans (congrArg (Counter.after next) hcount.symm)
  | call _ args none _, next => by
    have hcount : (none :: unitsOfList args).count none = (unitsOfList args).count none + 1 :=
      List.count_cons_self
    exact (numberCallsOfList_snd args (Counter.next next)).trans
      (congrArg (Counter.after next) hcount.symm)
  | unary _ operand, next => numberCalls_snd operand next
  | binary op left right, next => by
    rw [units_binary, List.count_append, Counter.after_add, ← numberCalls_snd left,
      ← numberCalls_snd right, numberCalls]

theorem numberCallsOfList_snd : ∀ (es : List Expr) (next : κ),
    (numberCallsOfList next es).2 = Counter.after next ((unitsOfList es).count none)
  | [], _ => rfl
  | e :: es, next => by
    rw [unitsOfList_cons, List.count_append, Counter.after_add, ← numberCalls_snd e,
      ← numberCallsOfList_snd es, numberCallsOfList]

end

mutual

/-- The calls of an expression get their numbers in order. -/
theorem units_numberCalls : ∀ (e : Expr) (next : κ),
    (e.numberCalls next).1.units = assignUnits next e.units
  | number _, _ | name _, _ => rfl
  | element _ index _, next => units_numberCalls index next
  | call _ args (some n) _, next => congrArg (some n :: ·) (units_numberCallsOfList args next)
  | call _ args none _, next =>
    congrArg (some (Counter.number next) :: ·) (units_numberCallsOfList args (Counter.next next))
  | unary _ operand, next => units_numberCalls operand next
  | binary op left right, next => by
    rw [numberCalls, units_binary, units_binary, units_numberCalls left, units_numberCalls right,
      assignUnits_append, numberCalls_snd]

theorem units_numberCallsOfList : ∀ (es : List Expr) (next : κ),
    unitsOfList (numberCallsOfList next es).1 = assignUnits next (unitsOfList es)
  | [], _ => rfl
  | e :: es, next => by
    rw [numberCallsOfList, unitsOfList_cons, unitsOfList_cons, units_numberCalls e,
      units_numberCallsOfList es, assignUnits_append, numberCalls_snd]

end

theorem numberCallsOfList_append (next : κ) (es es' : List Expr) :
    numberCallsOfList next (es ++ es') =
      ((numberCallsOfList next es).1 ++
        (numberCallsOfList (numberCallsOfList next es).2 es').1,
        (numberCallsOfList (numberCallsOfList next es).2 es').2) := by
  induction es generalizing next with
  | nil => rfl
  | cons e es ih => simp only [List.cons_append, numberCallsOfList, ih]

end Expr

/-! ## Moves -/

namespace Move

/-- Numbers the calls in a move. -/
def numberCalls (next : κ) : Move → Move × κ
  | set target value =>
    let (target, next) := target.numberCalls next
    let (value, next) := value.numberCalls next
    (set target value, next)
  | result signal value =>
    let (value, next) := value.numberCalls next
    (result signal value, next)
  | test condition =>
    let (condition, next) := condition.numberCalls next
    (test condition, next)

/-- `numberCalls` on a list of moves, from the first to the last. -/
def numberCallsOfList (next : κ) : List Move → List Move × κ
  | [] => ([], next)
  | m :: ms =>
    let (m, next) := m.numberCalls next
    let (ms, next) := numberCallsOfList next ms
    (m :: ms, next)

theorem numberCallsOfList_append (next : κ) (ms ms' : List Move) :
    numberCallsOfList next (ms ++ ms') =
      ((numberCallsOfList next ms).1 ++
        (numberCallsOfList (numberCallsOfList next ms).2 ms').1,
        (numberCallsOfList (numberCallsOfList next ms).2 ms').2) := by
  induction ms generalizing next with
  | nil => rfl
  | cons m ms ih => simp only [List.cons_append, numberCallsOfList, ih]

theorem exists_of_mem_numberCallsOfList {m : Move} {ms : List Move} {next : κ}
    (h : m ∈ (numberCallsOfList next ms).1) : ∃ m₀ ∈ ms, ∃ k : κ, m = (m₀.numberCalls k).1 := by
  induction ms generalizing next with
  | nil => cases h
  | cons m₀ ms ih =>
    rcases List.mem_cons.1 h with rfl | hmem
    · exact ⟨m₀, List.mem_cons_self, next, rfl⟩
    · obtain ⟨m₁, hm₁, hk⟩ := ih hmem
      exact ⟨m₁, List.mem_cons_of_mem _ hm₁, hk⟩

theorem numberCalls_expressions (m : Move) (next : κ) :
    Expr.numberCallsOfList next m.expressions =
      ((m.numberCalls next).1.expressions, (m.numberCalls next).2) := by
  cases m with
  | set target value => cases target <;> rfl
  | result signal value => rfl
  | test condition => rfl

theorem numberCallsOfList_expressions (ms : List Move) (next : κ) :
    Expr.numberCallsOfList next (ms.flatMap expressions) =
      ((numberCallsOfList next ms).1.flatMap expressions, (numberCallsOfList next ms).2) := by
  induction ms generalizing next with
  | nil => rfl
  | cons m ms ih =>
    rw [List.flatMap_cons, Expr.numberCallsOfList_append, m.numberCalls_expressions, ih,
      numberCallsOfList, List.flatMap_cons]

end Move

/-! ## Bodies -/

theorem Declaration.moves_numberCalls (d : Declaration) (next : κ) :
    Move.numberCallsOfList next d.moves =
      ((d.numberCalls next).1.moves, (d.numberCalls next).2) := by
  obtain ⟨name, type, form, position⟩ := d
  rcases form with (_ | e) | _
  · rfl
  · rfl
  · rfl

theorem ForStart.moves_numberCalls (init : Option ForStart) (next : κ) :
    Move.numberCallsOfList next ((init.map moves).getD []) =
      (((numberCallsOfOption numberCalls next init).1.map moves).getD [],
        (numberCallsOfOption numberCalls next init).2) := by
  cases init with
  | none => rfl
  | some start =>
    cases start with
    | declare d => exact d.moves_numberCalls next
    | assign a => rfl

theorem Assignment.moves_numberCalls (increment : Option Assignment) (next : κ) :
    Move.numberCallsOfList next (increment.map move).toList =
      (((numberCallsOfOption numberCalls next increment).1.map move).toList,
        (numberCallsOfOption numberCalls next increment).2) := by
  cases increment <;> rfl

mutual

theorem Stmt.moves_numberCalls : ∀ (s : Stmt) (next : κ),
    Move.numberCallsOfList next s.moves = ((s.numberCalls next).1.moves, (s.numberCalls next).2)
  | .declare d, next => d.moves_numberCalls next
  | .assign _, _ | .ret none _, _ | .ret (some _) _, _ | .jump .., _ => rfl
  | .branch condition body otherwise _, next => by
    simp only [Stmt.moves, Stmt.numberCalls, Move.numberCallsOfList_append, Move.numberCallsOfList,
      Move.numberCalls, Block.moves_numberCalls body, otherwise.moves_numberCalls]
  | .whileLoop condition body _, next => by
    simp only [Stmt.moves, Stmt.numberCalls, Move.numberCallsOfList, Move.numberCalls,
      Block.moves_numberCalls body]
  | .forLoop init condition body increment _, next => by
    simp only [Stmt.moves, Stmt.numberCalls, Move.numberCallsOfList_append, Move.numberCallsOfList,
      Move.numberCalls, ForStart.moves_numberCalls, Assignment.moves_numberCalls,
      Block.moves_numberCalls body]

theorem Alternative.moves_numberCalls : ∀ (a : Alternative) (next : κ),
    Move.numberCallsOfList next a.moves = ((a.numberCalls next).1.moves, (a.numberCalls next).2)
  | .none, _ => rfl
  | .body body, next => Block.moves_numberCalls body next
  | .branch condition body otherwise _, next => by
    simp only [Alternative.moves, Alternative.numberCalls, Move.numberCallsOfList_append,
      Move.numberCallsOfList, Move.numberCalls, Block.moves_numberCalls body,
      otherwise.moves_numberCalls]

/-- Numbering the calls of a body numbers those of its moves. -/
theorem Block.moves_numberCalls : ∀ (ss : List Stmt) (next : κ),
    Move.numberCallsOfList next (Block.moves ss) =
      (Block.moves (Block.numberCalls next ss).1, (Block.numberCalls next ss).2)
  | [], _ => rfl
  | s :: ss, next => by
    simp only [Block.moves, Block.numberCalls, Move.numberCallsOfList_append, s.moves_numberCalls,
      Block.moves_numberCalls ss]

end

theorem Block.expressions_numberCalls (ss : List Stmt) (next : κ) :
    Expr.numberCallsOfList next (Block.expressions ss) =
      (Block.expressions (Block.numberCalls next ss).1, (Block.numberCalls next ss).2) := by
  rw [← Block.flatMap_moves, Move.numberCallsOfList_expressions, Block.moves_numberCalls,
    Block.flatMap_moves]

theorem Declaration.name_numberCalls (d : Declaration) (next : Nat) :
    (d.numberCalls next).1.name = d.name := by
  unfold numberCalls
  split <;> rfl

/-- A part of declarations that numbering their calls does not change. -/
def Declaration.KeptByNumbering {α : Type} (key : Declaration → α) : Prop :=
  ∀ (d : Declaration) (next : Nat), key (d.numberCalls next).1 = key d

open Declaration (KeptByNumbering)

theorem ForStart.map_declarations_numberCalls {α : Type} {key : Declaration → α}
    (hkey : KeptByNumbering key) (init : Option ForStart) (next : Nat) :
    (((numberCallsOfOption numberCalls next init).1.map declarations).getD []).map key =
      ((init.map declarations).getD []).map key := by
  cases init with
  | none => rfl
  | some start =>
    cases start with
    | declare d => exact congrArg ([·]) (hkey d next)
    | assign a => rfl

mutual

theorem Stmt.map_declarations_numberCalls {α : Type} {key : Declaration → α}
    (hkey : KeptByNumbering key) : ∀ (s : Stmt) (next : Nat),
    (s.numberCalls next).1.declarations.map key = s.declarations.map key
  | .declare d, next => congrArg ([·]) (hkey d next)
  | .assign _, _ | .ret .., _ | .jump .., _ => rfl
  | .branch condition body otherwise _, next => by
    simp only [Stmt.declarations, Stmt.numberCalls, List.map_append,
      Block.map_declarations_numberCalls hkey body, otherwise.map_declarations_numberCalls hkey]
  | .whileLoop condition body _, next => Block.map_declarations_numberCalls hkey body _
  | .forLoop init condition body increment _, next => by
    simp only [Stmt.declarations, Stmt.numberCalls, List.map_append,
      Block.map_declarations_numberCalls hkey body, ForStart.map_declarations_numberCalls hkey]

theorem Alternative.map_declarations_numberCalls {α : Type} {key : Declaration → α}
    (hkey : KeptByNumbering key) : ∀ (a : Alternative) (next : Nat),
    (a.numberCalls next).1.declarations.map key = a.declarations.map key
  | .none, _ => rfl
  | .body body, next => Block.map_declarations_numberCalls hkey body next
  | .branch condition body otherwise _, next => by
    simp only [Alternative.declarations, Alternative.numberCalls, List.map_append,
      Block.map_declarations_numberCalls hkey body, otherwise.map_declarations_numberCalls hkey]

/-- Numbering calls changes nothing about the declarations of a body but their initial values. -/
theorem Block.map_declarations_numberCalls {α : Type} {key : Declaration → α}
    (hkey : KeptByNumbering key) : ∀ (ss : List Stmt) (next : Nat),
    (Block.declarations (Block.numberCalls next ss).1).map key = (Block.declarations ss).map key
  | [], _ => rfl
  | s :: ss, next => by
    simp only [Block.declarations, Block.numberCalls, List.map_append,
      s.map_declarations_numberCalls hkey, Block.map_declarations_numberCalls hkey ss]

end

theorem Block.names_numberCalls (ss : List Stmt) (next : Nat) :
    (Block.declarations (Block.numberCalls next ss).1).map Declaration.name =
      (Block.declarations ss).map Declaration.name :=
  Block.map_declarations_numberCalls Declaration.name_numberCalls ss next

/-! ## Functions -/

namespace Function

variable (f : Function)

theorem units_eq : f.calls.map Call.unit = Expr.unitsOfList (Block.expressions f.body) := by
  rw [Expr.unitsOfList, Expr.callsOfList_eq_flatMap, calls]

/-- The calls that have no number get numbers in the order of the source. -/
theorem units_numberCallsFrom (first : κ) :
    (f.numberCallsFrom first).1.calls.map Call.unit =
      assignUnits first (f.calls.map Call.unit) := by
  have hbody : Block.expressions (f.numberCallsFrom first).1.body =
      (Expr.numberCallsOfList first (Block.expressions f.body)).1 := by
    rw [Block.expressions_numberCalls]
    rfl
  rw [units_eq, units_eq, hbody, Expr.units_numberCallsOfList]

/-- Each of these calls has moved the counter on. -/
theorem numberCallsFrom_snd (first : κ) :
    (f.numberCallsFrom first).2 = Counter.after first ((f.calls.map Call.unit).count none) := by
  rw [units_eq, ← Expr.numberCallsOfList_snd, Block.expressions_numberCalls]
  rfl

/-- The numbers go up from the first free one. -/
theorem units_numberCalls :
    f.numberCalls.1.calls.map Call.unit = assignUnits f.firstFreeUnit (f.calls.map Call.unit) :=
  f.units_numberCallsFrom f.firstFreeUnit

/-- Where no call has a number, the numbers count the calls. -/
theorem units_numberCalls_of_none (h : ∀ c ∈ f.calls, c.unit = none) :
    f.numberCalls.1.calls.map Call.unit = (List.range f.calls.length).map some := by
  have hunits : f.calls.map Call.unit = List.replicate f.calls.length none := by
    rw [List.eq_replicate_iff]
    refine ⟨List.length_map _, ?_⟩
    intro u hu
    obtain ⟨c, hc, rfl⟩ := List.mem_map.1 hu
    exact h c hc
  have hused : f.calls.filterMap Call.unit = [] := List.filterMap_eq_nil_iff.2 h
  have hfree : f.firstFreeUnit = 0 := by
    rw [firstFreeUnit, greatestUnit?, hused]
    rfl
  rw [units_numberCalls, hunits, hfree, assignUnits_replicate, List.range_eq_range']

end Function

end ClockedC
