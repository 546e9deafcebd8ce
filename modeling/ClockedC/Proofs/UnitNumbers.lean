import ClockedC.Proofs.NumberedDesign

/-!
# Numbering each call once

A function may come with unit numbers for some of its calls. Numbering it gives a number to each of
the others and changes nothing else, so that no two calls end up as the same piece of hardware.
Numbers may be words of 64 bits, of which there may be too few.

* `Function.unnumbered` is a function without unit numbers, and
  `Function.unnumbered_numberCallsFrom` says that numbering changes nothing but these.
* `Function.firstFreeUnit_le_iff` says that the first new number is the least above those in use.
* `Function.NumbersOnce` says what it means that each call is numbered once, and
  `Function.numbersOnce_numberCalls` that this is what numbering without a bound does.
* `Function.numberCallsFrom_ofNat`: as long as the numbers are words, it makes no difference whether
  they are counted in words.
* `Function.numberCallsInWords_once`: what numbering in words does, whether or not there are enough
  of them.
-/

namespace ClockedC

variable {κ : Type} [Counter κ]

/-! ## Functions without unit numbers -/

namespace Expr

mutual

/-- An expression without unit numbers. -/
def unnumbered : Expr → Expr
  | number text => number text
  | name n => name n
  | element base index text => element base index.unnumbered text
  | call callee args _ position => call callee (unnumberedList args) none position
  | unary op operand => unary op operand.unnumbered
  | binary op left right => binary op left.unnumbered right.unnumbered

/-- A list of expressions without unit numbers. -/
def unnumberedList : List Expr → List Expr
  | [] => []
  | e :: es => e.unnumbered :: unnumberedList es

end

end Expr

/-- A form without unit numbers. -/
def Form.unnumbered : Form → Form
  | scalar init => scalar (init.map Expr.unnumbered)
  | array size init => array size init

/-- A declaration without unit numbers. -/
def Declaration.unnumbered (d : Declaration) : Declaration :=
  ⟨d.name, d.type, d.form.unnumbered, d.position⟩

/-- A target without unit numbers. -/
def Target.unnumbered : Target → Target
  | name n => name n
  | element base index text => element base index.unnumbered text

/-- An assignment without unit numbers. -/
def Assignment.unnumbered (a : Assignment) : Assignment :=
  ⟨a.target.unnumbered, a.value.unnumbered, a.position⟩

/-- The start of a `for` loop without unit numbers. -/
def ForStart.unnumbered : ForStart → ForStart
  | declare d => declare d.unnumbered
  | assign a => assign a.unnumbered

mutual

/-- A statement without unit numbers. -/
def Stmt.unnumbered : Stmt → Stmt
  | .declare d => .declare d.unnumbered
  | .assign a => .assign a.unnumbered
  | .ret value position => .ret (value.map Expr.unnumbered) position
  | .branch condition body otherwise position =>
    .branch condition.unnumbered (Block.unnumbered body) otherwise.unnumbered position
  | .whileLoop condition body position =>
    .whileLoop condition.unnumbered (Block.unnumbered body) position
  | .forLoop init condition body increment position =>
    .forLoop (init.map ForStart.unnumbered) condition.unnumbered (Block.unnumbered body)
      (increment.map Assignment.unnumbered) position
  | .jump jump position => .jump jump position

/-- An alternative without unit numbers. -/
def Alternative.unnumbered : Alternative → Alternative
  | .none => .none
  | .body body => .body (Block.unnumbered body)
  | .branch condition body otherwise position =>
    .branch condition.unnumbered (Block.unnumbered body) otherwise.unnumbered position

/-- A body without unit numbers. -/
def Block.unnumbered : List Stmt → List Stmt
  | [] => []
  | s :: ss => s.unnumbered :: Block.unnumbered ss

end

/-- A function without unit numbers. -/
def Function.unnumbered (f : Function) : Function :=
  ⟨f.name, f.returns, f.params, Block.unnumbered f.body, f.position⟩

/-! ## Only unit numbers change -/

namespace Expr

mutual

theorem unnumbered_numberCalls : ∀ (e : Expr) (next : κ),
    (e.numberCalls next).1.unnumbered = e.unnumbered
  | number _, _ | name _, _ => rfl
  | element _ index _, next => by
    rw [numberCalls, unnumbered, unnumbered, unnumbered_numberCalls index]
  | call _ args (some _) _, next => by
    rw [numberCalls, unnumbered, unnumbered, unnumberedList_numberCalls args]
  | call _ args none _, next => by
    rw [numberCalls, unnumbered, unnumbered, unnumberedList_numberCalls args]
  | unary _ operand, next => by
    rw [numberCalls, unnumbered, unnumbered, unnumbered_numberCalls operand]
  | binary _ left right, next => by
    rw [numberCalls, unnumbered, unnumbered, unnumbered_numberCalls left,
      unnumbered_numberCalls right]

theorem unnumberedList_numberCalls : ∀ (es : List Expr) (next : κ),
    unnumberedList (numberCallsOfList next es).1 = unnumberedList es
  | [], _ => rfl
  | e :: es, next => by
    rw [numberCallsOfList, unnumberedList, unnumberedList, unnumbered_numberCalls e,
      unnumberedList_numberCalls es]

end

end Expr

theorem Declaration.unnumbered_numberCalls (d : Declaration) (next : κ) :
    (d.numberCalls next).1.unnumbered = d.unnumbered := by
  obtain ⟨name, type, form, position⟩ := d
  rcases form with (_ | e) | _
  · rfl
  · have he := e.unnumbered_numberCalls next
    simp only [numberCalls, unnumbered, Form.unnumbered, Option.map_some, he]
  · rfl

theorem Target.unnumbered_numberCalls (t : Target) (next : κ) :
    (t.numberCalls next).1.unnumbered = t.unnumbered := by
  cases t with
  | name n => rfl
  | element base index text =>
    rw [numberCalls, unnumbered, unnumbered, index.unnumbered_numberCalls]

theorem Assignment.unnumbered_numberCalls (a : Assignment) (next : κ) :
    (a.numberCalls next).1.unnumbered = a.unnumbered := by
  simp only [numberCalls, unnumbered, a.target.unnumbered_numberCalls,
    a.value.unnumbered_numberCalls]

theorem ForStart.unnumbered_numberCalls (s : ForStart) (next : κ) :
    (s.numberCalls next).1.unnumbered = s.unnumbered := by
  cases s with
  | declare d => rw [numberCalls, unnumbered, unnumbered, d.unnumbered_numberCalls]
  | assign a => rw [numberCalls, unnumbered, unnumbered, a.unnumbered_numberCalls]

omit [Counter κ] in
/-- What may be absent is numbered where it is present. -/
theorem map_numberCallsOfOption {α β : Type} {number : κ → α → α × κ} {key : α → β}
    (h : ∀ a next, key (number next a).1 = key a) (o : Option α) (next : κ) :
    (numberCallsOfOption number next o).1.map key = o.map key := by
  cases o with
  | none => rfl
  | some a => exact congrArg some (h a next)

mutual

theorem Stmt.unnumbered_numberCalls : ∀ (s : Stmt) (next : κ),
    (s.numberCalls next).1.unnumbered = s.unnumbered
  | .declare d, next => by
    rw [Stmt.numberCalls, Stmt.unnumbered, Stmt.unnumbered, d.unnumbered_numberCalls]
  | .assign a, next => by
    rw [Stmt.numberCalls, Stmt.unnumbered, Stmt.unnumbered, a.unnumbered_numberCalls]
  | .ret value _, next => by
    rw [Stmt.numberCalls, Stmt.unnumbered, Stmt.unnumbered,
      map_numberCallsOfOption Expr.unnumbered_numberCalls]
  | .branch condition body otherwise _, next => by
    rw [Stmt.numberCalls, Stmt.unnumbered, Stmt.unnumbered, condition.unnumbered_numberCalls,
      Block.unnumbered_numberCalls body, Alternative.unnumbered_numberCalls otherwise]
  | .whileLoop condition body _, next => by
    rw [Stmt.numberCalls, Stmt.unnumbered, Stmt.unnumbered, condition.unnumbered_numberCalls,
      Block.unnumbered_numberCalls body]
  | .forLoop init condition body increment _, next => by
    rw [Stmt.numberCalls, Stmt.unnumbered, Stmt.unnumbered, condition.unnumbered_numberCalls,
      Block.unnumbered_numberCalls body, map_numberCallsOfOption ForStart.unnumbered_numberCalls,
      map_numberCallsOfOption Assignment.unnumbered_numberCalls]
  | .jump .., _ => rfl

theorem Alternative.unnumbered_numberCalls : ∀ (a : Alternative) (next : κ),
    (a.numberCalls next).1.unnumbered = a.unnumbered
  | .none, _ => rfl
  | .body body, next => by
    rw [Alternative.numberCalls, Alternative.unnumbered, Alternative.unnumbered,
      Block.unnumbered_numberCalls body]
  | .branch condition body otherwise _, next => by
    rw [Alternative.numberCalls, Alternative.unnumbered, Alternative.unnumbered,
      condition.unnumbered_numberCalls, Block.unnumbered_numberCalls body,
      Alternative.unnumbered_numberCalls otherwise]

/-- Numbering the calls of a body changes nothing but their numbers. -/
theorem Block.unnumbered_numberCalls : ∀ (ss : List Stmt) (next : κ),
    Block.unnumbered (Block.numberCalls next ss).1 = Block.unnumbered ss
  | [], _ => rfl
  | s :: ss, next => by
    rw [Block.numberCalls, Block.unnumbered, Block.unnumbered, Stmt.unnumbered_numberCalls s,
      Block.unnumbered_numberCalls ss]

end

theorem Function.unnumbered_numberCallsFrom (f : Function) (first : κ) :
    (f.numberCallsFrom first).1.unnumbered = f.unnumbered := by
  have hbody := Block.unnumbered_numberCalls f.body first
  simp only [numberCallsFrom, unnumbered, hbody]

/-! ## The numbers that are given -/

/-- A number that was there is kept. Others count up, past those that were given before. -/
theorem getElem?_assignUnits (next : κ) (us : List (Option Nat)) (i : Nat) :
    (assignUnits next us)[i]? = us[i]?.map fun u =>
      some (u.getD (Counter.number (Counter.after next ((us.take i).count none)))) := by
  induction us generalizing next i with
  | nil => rfl
  | cons u us ih =>
    cases i with
    | zero => cases u <;> rfl
    | succ i =>
      rw [List.take_succ_cons, List.getElem?_cons_succ]
      cases u with
      | some n => rw [assignUnits, List.getElem?_cons_succ, ih, count_some_cons]
      | none => rw [assignUnits, List.getElem?_cons_succ, ih, List.count_cons_self, Counter.after]

theorem length_assignUnits (next : κ) (us : List (Option Nat)) :
    (assignUnits next us).length = us.length := by
  induction us generalizing next with
  | nil => rfl
  | cons u us ih => cases u <;> rw [assignUnits, List.length_cons, ih, List.length_cons]

theorem some_mem_assignUnits {next n : Nat} {us : List (Option Nat)}
    (h : some n ∈ assignUnits next us) : some n ∈ us ∨ next ≤ n := by
  induction us generalizing next with
  | nil => cases h
  | cons u us ih =>
    cases u with
    | some m =>
      rcases List.mem_cons.1 h with heq | hmem
      · exact .inl (heq ▸ List.mem_cons_self)
      · exact (ih hmem).imp_left (List.mem_cons_of_mem _)
    | none =>
      rcases List.mem_cons.1 h with heq | hmem
      · cases heq
        exact .inr (Nat.le_refl _)
      · rcases ih hmem with hold | hnew
        · exact .inl (List.mem_cons_of_mem _ hold)
        · rw [Counter.next_nat] at hnew
          exact .inr (by omega)

/-- Numbers from above all that are in use make no number occur twice. -/
theorem nodup_assignUnits {next : Nat} {us : List (Option Nat)} (hused : (us.filterMap id).Nodup)
    (habove : ∀ n, some n ∈ us → n < next) : (assignUnits next us).Nodup := by
  induction us generalizing next with
  | nil => exact List.nodup_nil
  | cons u us ih =>
    cases u with
    | some m =>
      rw [List.filterMap_cons_some (by rfl), List.nodup_cons] at hused
      refine List.nodup_cons.2 ⟨?_, ih hused.2 fun n hn => habove n (List.mem_cons_of_mem _ hn)⟩
      intro hmem
      rcases some_mem_assignUnits hmem with hold | hnew
      · exact hused.1 (List.mem_filterMap.2 ⟨some m, hold, rfl⟩)
      · have hlt := habove m List.mem_cons_self
        omega
    | none =>
      rw [List.filterMap_cons_none (by rfl)] at hused
      have hlt (n : Nat) (hn : some n ∈ us) : n < next := habove n (List.mem_cons_of_mem _ hn)
      refine List.nodup_cons.2 ⟨?_, ih hused fun n hn => Nat.lt_succ_of_lt (hlt n hn)⟩
      intro hmem
      rcases some_mem_assignUnits hmem with hold | hnew
      · exact Nat.lt_irrefl _ (hlt next hold)
      · rw [Counter.next_nat, Counter.number_nat] at hnew
        omega

/-! ## Each call once -/

namespace Function

variable (f : Function)

/-- `m` is the greatest unit number in use. -/
def GreatestUnit (m : Nat) : Prop :=
  (∃ c ∈ f.calls, c.unit = some m) ∧ ∀ c ∈ f.calls, ∀ n, c.unit = some n → n ≤ m

theorem greatestUnit?_eq_some_iff {m : Nat} : f.greatestUnit? = some m ↔ f.GreatestUnit m := by
  rw [greatestUnit?, List.max?_eq_some_iff, List.mem_filterMap]
  refine and_congr_right fun _ => ?_
  constructor
  · intro hall c hc n hn
    exact hall n (List.mem_filterMap.2 ⟨c, hc, hn⟩)
  · intro hall n hn
    obtain ⟨c, hc, hunit⟩ := List.mem_filterMap.1 hn
    exact hall c hc n hunit

theorem greatestUnit?_eq_none_iff : f.greatestUnit? = none ↔ ∀ c ∈ f.calls, c.unit = none := by
  rw [greatestUnit?, List.max?_eq_none_iff, List.filterMap_eq_nil_iff]

theorem firstFreeUnit_of_greatest {m : Nat} (h : f.GreatestUnit m) : f.firstFreeUnit = m + 1 := by
  rw [firstFreeUnit, f.greatestUnit?_eq_some_iff.2 h]

theorem firstFreeUnit_of_none (h : ∀ c ∈ f.calls, c.unit = none) : f.firstFreeUnit = 0 := by
  rw [firstFreeUnit, f.greatestUnit?_eq_none_iff.2 h]

/-- The first free number is the least one above all that are in use. -/
theorem firstFreeUnit_le_iff {b : Nat} :
    f.firstFreeUnit ≤ b ↔ ∀ c ∈ f.calls, ∀ n, c.unit = some n → n < b := by
  cases hgreatest : f.greatestUnit? with
  | none =>
    have hnone := f.greatestUnit?_eq_none_iff.1 hgreatest
    rw [f.firstFreeUnit_of_none hnone]
    refine iff_of_true (Nat.zero_le b) fun c hc n hn => ?_
    rw [hnone c hc] at hn
    cases hn
  | some m =>
    have hunit := f.greatestUnit?_eq_some_iff.1 hgreatest
    rw [f.firstFreeUnit_of_greatest hunit]
    obtain ⟨⟨c₀, hc₀, hm⟩, hle⟩ := hunit
    constructor
    · intro hb c hc n hn
      have hnm := hle c hc n hn
      omega
    · exact fun hall => hall c₀ hc₀ m hm

/-- How many of some calls have no unit number. -/
def unnumberedCount (cs : List Call) : Nat :=
  cs.countP fun c => c.unit.isNone

theorem unnumberedCount_cons (c : Call) (cs : List Call) :
    unnumberedCount (c :: cs) = unnumberedCount cs + if c.unit.isNone then 1 else 0 :=
  List.countP_cons

theorem count_map_unit (cs : List Call) : (cs.map Call.unit).count none = unnumberedCount cs := by
  rw [List.count, List.countP_map, unnumberedCount]
  apply List.countP_congr
  intro c _
  simp

theorem numberCalls_snd : f.numberCalls.2 = unnumberedCount f.calls := by
  have hnext := f.numberCallsFrom_snd f.firstFreeUnit
  rw [count_map_unit, Counter.after_nat] at hnext
  show (f.numberCallsFrom f.firstFreeUnit).2 - f.firstFreeUnit = _
  omega

/-- The unit number that the call at a place has in the end. -/
theorem unit_numberCallsFrom (first : κ) {i : Nat} {c : Call} (h : f.calls[i]? = some c) :
    ∃ c', (f.numberCallsFrom first).1.calls[i]? = some c' ∧ c'.unit = some (c.unit.getD
      (Counter.number (Counter.after first (unnumberedCount (f.calls.take i))))) := by
  have hunit := congrArg (·[i]?) (f.units_numberCallsFrom first)
  simp only [getElem?_assignUnits, List.getElem?_map, h, Option.map_some, ← List.map_take,
    count_map_unit] at hunit
  exact Option.map_eq_some_iff.1 hunit

theorem length_numberCallsFrom (first : κ) :
    (f.numberCallsFrom first).1.calls.length = f.calls.length := by
  have hunits := congrArg List.length (f.units_numberCallsFrom first)
  rwa [length_assignUnits, List.length_map, List.length_map] at hunits

/-- `g` is `f` with a unit number for each call, and `count` of these are new. The numbers in use
are kept. The new ones are given in the order of the calls, without a gap, from the one after the
greatest in use on, or from zero on if none is in use. -/
structure NumbersOnce (g : Function) (count : Nat) : Prop where
  counted : count = unnumberedCount f.calls
  length : g.calls.length = f.calls.length
  numbered : ∀ c ∈ g.calls, c.unit ≠ none
  kept : ∀ (i : Nat) (c : Call) (n : Nat), f.calls[i]? = some c → c.unit = some n →
    ∃ c', g.calls[i]? = some c' ∧ c'.unit = some n
  given : ∃ first, (∀ m, f.GreatestUnit m → first = m + 1) ∧
    ((∀ c ∈ f.calls, c.unit = none) → first = 0) ∧
    ∀ (i : Nat) (c : Call), f.calls[i]? = some c → c.unit = none →
      ∃ c', g.calls[i]? = some c' ∧ c'.unit = some (first + unnumberedCount (f.calls.take i))
  unchanged : g.unnumbered = f.unnumbered
  distinct : (f.calls.filterMap Call.unit).Nodup → (g.calls.map Call.unit).Nodup

theorem distinct_numberCalls (h : (f.calls.filterMap Call.unit).Nodup) :
    (f.numberCalls.1.calls.map Call.unit).Nodup := by
  rw [units_numberCalls]
  apply nodup_assignUnits
  · rwa [List.filterMap_map]
  · intro n hn
    obtain ⟨c, hc, hunit⟩ := List.mem_map.1 hn
    exact f.firstFreeUnit_le_iff.1 (Nat.le_refl _) c hc n hunit

/-- **Each call is numbered once.** Numbering a function leaves it as it is, apart from a new number
for each call that had none; these are told from one another and from those in use. -/
theorem numbersOnce_numberCalls : f.NumbersOnce f.numberCalls.1 f.numberCalls.2 where
  counted := f.numberCalls_snd
  length := f.length_numberCallsFrom f.firstFreeUnit
  numbered c hc := by
    have hnone := f.hasUnnumberedCall_numberCalls
    rw [hasUnnumberedCall, List.any_eq_false] at hnone
    intro hunit
    exact hnone c hc (Option.isNone_iff_eq_none.2 hunit)
  kept i c n hc hunit := by
    obtain ⟨c', hc', hunit'⟩ := f.unit_numberCallsFrom f.firstFreeUnit hc
    rw [hunit, Option.getD_some] at hunit'
    exact ⟨c', hc', hunit'⟩
  given := by
    refine ⟨f.firstFreeUnit, fun m => f.firstFreeUnit_of_greatest, f.firstFreeUnit_of_none, ?_⟩
    intro i c hc hunit
    obtain ⟨c', hc', hunit'⟩ := f.unit_numberCallsFrom f.firstFreeUnit hc
    rw [hunit, Option.getD_none, Counter.after_nat, Counter.number_nat] at hunit'
    exact ⟨c', hc', hunit'⟩
  unchanged := f.unnumbered_numberCallsFrom f.firstFreeUnit
  distinct := f.distinct_numberCalls

end Function

/-! ## Numbers that are words -/

namespace WordCounter

/-- The counter that has got to a number, with what it would have to tell of numbers beyond the
words. -/
def ofNat (n : Nat) : WordCounter := ⟨UInt64.ofNat n, decide (UInt64.size ≤ n)⟩

theorem number_ofNat (n : Nat) : Counter.number (ofNat n) = n % UInt64.size :=
  UInt64.toNat_ofNat'

theorem number_ofNat_of_lt {n : Nat} (h : n < UInt64.size) : Counter.number (ofNat n) = n := by
  rw [number_ofNat, Nat.mod_eq_of_lt h]

theorem next_ofNat (n : Nat) : Counter.next (ofNat n) = ofNat (n + 1) := by
  have hvalue : UInt64.ofNat n + 1 = UInt64.ofNat (n + 1) := by
    rw [UInt64.ofNat_add]
    rfl
  -- the word comes round to zero just when the number is the first beyond the words
  have hzero : UInt64.ofNat (n + 1) = 0 ↔ (n + 1) % UInt64.size = 0 := by
    rw [← UInt64.toNat_inj, UInt64.toNat_ofNat']
    rfl
  show WordCounter.mk (UInt64.ofNat n + 1)
    (decide (UInt64.size ≤ n) || UInt64.ofNat n + 1 == 0) = ofNat (n + 1)
  rw [hvalue, ofNat, mk.injEq]
  refine ⟨rfl, ?_⟩
  rw [Bool.eq_iff_iff, Bool.or_eq_true, decide_eq_true_eq, decide_eq_true_eq, beq_iff_eq, hzero]
  unfold UInt64.size
  omega

theorem after_ofNat (n k : Nat) : Counter.after (ofNat n) k = ofNat (n + k) := by
  induction k generalizing n with
  | zero => rfl
  | succ k ih => rw [Counter.after, next_ofNat, ih, Nat.add_assoc, Nat.add_comm 1]

theorem value_sub_value (n k : Nat) : (ofNat (n + k)).value - (ofNat n).value = UInt64.ofNat k := by
  show UInt64.ofNat (n + k) - UInt64.ofNat n = UInt64.ofNat k
  rw [UInt64.ofNat_add, UInt64.add_comm, UInt64.add_sub_cancel]

end WordCounter

open ClockedC.WordCounter (ofNat number_ofNat_of_lt next_ofNat)

/-! ### Counters go up -/

theorem Expr.le_numberCalls (e : Expr) (n : Nat) : n ≤ (e.numberCalls n).2 := by
  rw [numberCalls_snd, Counter.after_nat]
  exact Nat.le_add_right _ _

theorem Expr.le_numberCallsOfList (es : List Expr) (n : Nat) : n ≤ (numberCallsOfList n es).2 := by
  rw [numberCallsOfList_snd, Counter.after_nat]
  exact Nat.le_add_right _ _

theorem Move.le_numberCallsOfList (ms : List Move) (n : Nat) : n ≤ (numberCallsOfList n ms).2 := by
  have hsame := congrArg Prod.snd (numberCallsOfList_expressions ms n)
  exact hsame ▸ Expr.le_numberCallsOfList _ n

theorem Assignment.le_numberCallsOfOption (increment : Option Assignment) (n : Nat) :
    n ≤ (numberCallsOfOption numberCalls n increment).2 := by
  have hsame := congrArg Prod.snd (Assignment.moves_numberCalls increment n)
  exact hsame ▸ Move.le_numberCallsOfList _ n

theorem Alternative.le_numberCalls (a : Alternative) (n : Nat) : n ≤ (a.numberCalls n).2 := by
  have hsame := congrArg Prod.snd (a.moves_numberCalls n)
  exact hsame ▸ Move.le_numberCallsOfList _ n

theorem Block.le_numberCalls (ss : List Stmt) (n : Nat) : n ≤ (Block.numberCalls n ss).2 := by
  have hsame := congrArg Prod.snd (Block.moves_numberCalls ss n)
  exact hsame ▸ Move.le_numberCallsOfList _ n

/-! ### Counting in words

Where the last counter is not beyond the words, those before it are not either, and all of the
numbers that are given are words. -/

namespace Expr

mutual

theorem numberCalls_ofNat : ∀ (e : Expr) {n : Nat}, (e.numberCalls n).2 ≤ UInt64.size →
    e.numberCalls (ofNat n) = ((e.numberCalls n).1, ofNat (e.numberCalls n).2)
  | number _, _, _ | name _, _, _ => rfl
  | element _ index _, n, h => by
    simp only [numberCalls, numberCalls_ofNat index h]
  | call _ args (some _) _, n, h => by
    simp only [numberCalls, numberCallsOfList_ofNat args h]
  | call _ args none _, n, h => by
    simp only [numberCalls, Counter.next_nat] at h
    have hn : n < UInt64.size := Nat.lt_of_lt_of_le (le_numberCallsOfList args (n + 1)) h
    simp only [numberCalls, number_ofNat_of_lt hn, next_ofNat, Counter.next_nat,
      Counter.number_nat, numberCallsOfList_ofNat args h]
  | unary _ operand, n, h => by
    simp only [numberCalls, numberCalls_ofNat operand h]
  | binary _ left right, n, h => by
    have hleft : (left.numberCalls n).2 ≤ UInt64.size := Nat.le_trans (right.le_numberCalls _) h
    simp only [numberCalls, numberCalls_ofNat left hleft, numberCalls_ofNat right h]

theorem numberCallsOfList_ofNat : ∀ (es : List Expr) {n : Nat},
    (numberCallsOfList n es).2 ≤ UInt64.size →
    numberCallsOfList (ofNat n) es = ((numberCallsOfList n es).1, ofNat (numberCallsOfList n es).2)
  | [], _, _ => rfl
  | e :: es, n, h => by
    have he : (e.numberCalls n).2 ≤ UInt64.size := Nat.le_trans (le_numberCallsOfList es _) h
    simp only [numberCallsOfList, numberCalls_ofNat e he, numberCallsOfList_ofNat es h]

end

end Expr

theorem Declaration.numberCalls_ofNat (d : Declaration) {n : Nat}
    (h : (d.numberCalls n).2 ≤ UInt64.size) :
    d.numberCalls (ofNat n) = ((d.numberCalls n).1, ofNat (d.numberCalls n).2) := by
  obtain ⟨name, type, form, position⟩ := d
  rcases form with (_ | e) | _
  · rfl
  · simp only [numberCalls, Expr.numberCalls_ofNat e h]
  · rfl

theorem Target.numberCalls_ofNat (t : Target) {n : Nat} (h : (t.numberCalls n).2 ≤ UInt64.size) :
    t.numberCalls (ofNat n) = ((t.numberCalls n).1, ofNat (t.numberCalls n).2) := by
  cases t with
  | name m => rfl
  | element base index text => simp only [numberCalls, Expr.numberCalls_ofNat index h]

theorem Assignment.numberCalls_ofNat (a : Assignment) {n : Nat}
    (h : (a.numberCalls n).2 ≤ UInt64.size) :
    a.numberCalls (ofNat n) = ((a.numberCalls n).1, ofNat (a.numberCalls n).2) := by
  simp only [numberCalls] at h
  have htarget := Nat.le_trans (a.value.le_numberCalls _) h
  simp only [numberCalls, Target.numberCalls_ofNat a.target htarget,
    Expr.numberCalls_ofNat a.value h]

theorem ForStart.numberCalls_ofNat (s : ForStart) {n : Nat}
    (h : (s.numberCalls n).2 ≤ UInt64.size) :
    s.numberCalls (ofNat n) = ((s.numberCalls n).1, ofNat (s.numberCalls n).2) := by
  cases s with
  | declare d => simp only [numberCalls, Declaration.numberCalls_ofNat d h]
  | assign a => simp only [numberCalls, Assignment.numberCalls_ofNat a h]

theorem numberCallsOfOption_ofNat {α : Type} {number : Nat → α → α × Nat}
    {number' : WordCounter → α → α × WordCounter} {n : Nat}
    (hnumber : ∀ a, (number n a).2 ≤ UInt64.size →
      number' (ofNat n) a = ((number n a).1, ofNat (number n a).2)) (o : Option α)
    (h : (numberCallsOfOption number n o).2 ≤ UInt64.size) :
    numberCallsOfOption number' (ofNat n) o =
      ((numberCallsOfOption number n o).1, ofNat (numberCallsOfOption number n o).2) := by
  cases o with
  | none => rfl
  | some a => simp only [numberCallsOfOption, hnumber a h]

mutual

theorem Stmt.numberCalls_ofNat : ∀ (s : Stmt) {n : Nat}, (s.numberCalls n).2 ≤ UInt64.size →
    s.numberCalls (ofNat n) = ((s.numberCalls n).1, ofNat (s.numberCalls n).2)
  | .declare d, n, h => by simp only [Stmt.numberCalls, Declaration.numberCalls_ofNat d h]
  | .assign a, n, h => by simp only [Stmt.numberCalls, Assignment.numberCalls_ofNat a h]
  | .ret value _, n, h => by
    have hvalue := numberCallsOfOption_ofNat (fun e => Expr.numberCalls_ofNat e) value h
    simp only [Stmt.numberCalls, hvalue]
  | .branch condition body otherwise _, n, h => by
    have hbody := Nat.le_trans (otherwise.le_numberCalls _) h
    have hcondition := Nat.le_trans (Block.le_numberCalls body _) hbody
    simp only [Stmt.numberCalls, Expr.numberCalls_ofNat condition hcondition,
      Block.numberCalls_ofNat body hbody, Alternative.numberCalls_ofNat otherwise h]
  | .whileLoop condition body _, n, h => by
    have hcondition := Nat.le_trans (Block.le_numberCalls body _) h
    simp only [Stmt.numberCalls, Expr.numberCalls_ofNat condition hcondition,
      Block.numberCalls_ofNat body h]
  | .forLoop init condition body increment _, n, h => by
    simp only [Stmt.numberCalls] at h
    have hbody := Nat.le_trans (Assignment.le_numberCallsOfOption increment _) h
    have hcondition := Nat.le_trans (Block.le_numberCalls body _) hbody
    have hinit := numberCallsOfOption_ofNat (fun s => ForStart.numberCalls_ofNat s) init
      (Nat.le_trans (condition.le_numberCalls _) hcondition)
    have hincrement :=
      numberCallsOfOption_ofNat (fun a => Assignment.numberCalls_ofNat a) increment h
    simp only [Stmt.numberCalls, hinit, Expr.numberCalls_ofNat condition hcondition,
      Block.numberCalls_ofNat body hbody, hincrement]
  | .jump .., _, _ => rfl

theorem Alternative.numberCalls_ofNat : ∀ (a : Alternative) {n : Nat},
    (a.numberCalls n).2 ≤ UInt64.size →
    a.numberCalls (ofNat n) = ((a.numberCalls n).1, ofNat (a.numberCalls n).2)
  | .none, _, _ => rfl
  | .body body, n, h => by simp only [Alternative.numberCalls, Block.numberCalls_ofNat body h]
  | .branch condition body otherwise _, n, h => by
    have hbody := Nat.le_trans (otherwise.le_numberCalls _) h
    have hcondition := Nat.le_trans (Block.le_numberCalls body _) hbody
    simp only [Alternative.numberCalls, Expr.numberCalls_ofNat condition hcondition,
      Block.numberCalls_ofNat body hbody, Alternative.numberCalls_ofNat otherwise h]

theorem Block.numberCalls_ofNat : ∀ (ss : List Stmt) {n : Nat},
    (Block.numberCalls n ss).2 ≤ UInt64.size →
    Block.numberCalls (ofNat n) ss = ((Block.numberCalls n ss).1, ofNat (Block.numberCalls n ss).2)
  | [], _, _ => rfl
  | s :: ss, n, h => by
    have hs : (s.numberCalls n).2 ≤ UInt64.size := Nat.le_trans (Block.le_numberCalls ss _) h
    simp only [Block.numberCalls, Stmt.numberCalls_ofNat s hs, Block.numberCalls_ofNat ss h]

end

/-! ## Each call once, in words -/

namespace Function

open ClockedC.WordCounter (number_ofNat after_ofNat value_sub_value)

variable {f : Function}

/-- As long as the numbers are words, it makes no difference whether they are counted in words. -/
theorem numberCallsFrom_ofNat {n : Nat} (h : (f.numberCallsFrom n).2 ≤ UInt64.size) :
    f.numberCallsFrom (ofNat n) = ((f.numberCallsFrom n).1, ofNat (f.numberCallsFrom n).2) := by
  simp only [numberCallsFrom, Block.numberCalls_ofNat f.body h]

/-- All unit numbers in use are words of 64 bits. -/
def UnitsInWords (f : Function) : Prop :=
  ∀ c ∈ f.calls, ∀ n, c.unit = some n → n < UInt64.size

theorem firstFreeWord_eq (h : f.UnitsInWords) : f.firstFreeWord = ofNat f.firstFreeUnit := by
  unfold firstFreeWord firstFreeUnit
  cases hgreatest : f.greatestUnit? with
  | none => rfl
  | some m =>
    obtain ⟨⟨c, hc, hunit⟩, -⟩ := f.greatestUnit?_eq_some_iff.1 hgreatest
    have hm := h c hc m hunit
    rw [← next_ofNat, ofNat, decide_eq_false (Nat.not_le.2 hm)]

/-- What comes of numbering in words, with the count and the overflow as they are in the end. -/
theorem numberCallsInWords_eq (h : f.UnitsInWords) :
    f.numberCallsInWords =
      ⟨(f.numberCallsFrom (ofNat f.firstFreeUnit)).1, UInt64.ofNat (unnumberedCount f.calls),
        decide (UInt64.size ≤ f.firstFreeUnit + unnumberedCount f.calls)⟩ := by
  have hnext := f.numberCallsFrom_snd (ofNat f.firstFreeUnit)
  rw [count_map_unit, after_ofNat] at hnext
  unfold numberCallsInWords
  simp only [firstFreeWord_eq h, hnext, value_sub_value]
  rfl

/-- The numbers that are words are given as they would be without a bound. -/
theorem function_numberCallsInWords (h : f.UnitsInWords)
    (hfit : f.firstFreeUnit + unnumberedCount f.calls ≤ UInt64.size) :
    f.numberCallsInWords.function = f.numberCalls.1 := by
  have hlast : (f.numberCallsFrom f.firstFreeUnit).2 ≤ UInt64.size := by
    rwa [numberCallsFrom_snd, count_map_unit, Counter.after_nat]
  rw [numberCallsInWords_eq h, numberCallsFrom_ofNat hlast]
  rfl

theorem numberCallsInWords_of_fit (h : f.UnitsInWords)
    (hfit : f.firstFreeUnit + unnumberedCount f.calls ≤ UInt64.size)
    (hcount : unnumberedCount f.calls < UInt64.size) :
    (f.numberCallsInWords.function, f.numberCallsInWords.count.toNat) = f.numberCalls := by
  refine Prod.ext (function_numberCallsInWords h hfit) ?_
  rw [numberCalls_snd, numberCallsInWords_eq h]
  exact UInt64.toNat_ofNat_of_lt hcount

/-! ### Too few words -/

/-- The last of the calls without a number has all others of them before it. -/
theorem exists_last_unnumbered {cs : List Call} (h : unnumberedCount cs ≠ 0) :
    ∃ (i : Nat) (c : Call), cs[i]? = some c ∧ c.unit = none ∧
      unnumberedCount (cs.take i) + 1 = unnumberedCount cs := by
  induction cs with
  | nil => exact absurd rfl h
  | cons c cs ih =>
    rw [unnumberedCount_cons] at h ⊢
    by_cases hlater : unnumberedCount cs = 0
    · cases hunit : c.unit with
      | none =>
        refine ⟨0, c, rfl, hunit, ?_⟩
        rw [hlater]
        rfl
      | some n =>
        rw [hlater, hunit] at h
        exact absurd rfl h
    · obtain ⟨i, c', hc', hunit, hlast⟩ := ih hlater
      refine ⟨i + 1, c', hc', hunit, ?_⟩
      rw [List.take_succ_cons, unnumberedCount_cons]
      omega

/-- The first of the new numbers is the first free one. -/
theorem NumbersOnce.unit_of_none {g : Function} {count : Nat} (h : f.NumbersOnce g count) {i : Nat}
    {c : Call} (hc : f.calls[i]? = some c) (hunit : c.unit = none) :
    ∃ c', g.calls[i]? = some c' ∧
      c'.unit = some (f.firstFreeUnit + unnumberedCount (f.calls.take i)) := by
  obtain ⟨first, hgreatest, hnone, hgiven⟩ := h.given
  have hfirst : first = f.firstFreeUnit := by
    cases hm : f.greatestUnit? with
    | none =>
      have hall := f.greatestUnit?_eq_none_iff.1 hm
      rw [hnone hall, f.firstFreeUnit_of_none hall]
    | some m =>
      have hunit := f.greatestUnit?_eq_some_iff.1 hm
      rw [hgreatest m hunit, f.firstFreeUnit_of_greatest hunit]
  exact hfirst ▸ hgiven i c hc hunit

/-- Where words can number each call once, there are enough of them. -/
theorem NumbersOnce.le_size (hf : f.UnitsInWords) {g : Function} (hg : g.UnitsInWords) {count : Nat}
    (h : f.NumbersOnce g count) : f.firstFreeUnit + unnumberedCount f.calls ≤ UInt64.size := by
  by_cases hzero : unnumberedCount f.calls = 0
  · rw [hzero]
    exact f.firstFreeUnit_le_iff.2 hf
  · obtain ⟨i, c, hc, hunit, hlast⟩ := exists_last_unnumbered hzero
    obtain ⟨c', hc', hunit'⟩ := h.unit_of_none hc hunit
    have hword := hg c' (List.mem_of_getElem? hc') _ hunit'
    omega

/-! ### After numbering -/

/-- Where the number of a call comes from. -/
theorem exists_of_mem_numberCallsFrom {first : κ} {c' : Call}
    (h : c' ∈ (f.numberCallsFrom first).1.calls) :
    ∃ (i : Nat) (c : Call), f.calls[i]? = some c ∧ c'.unit = some (c.unit.getD
      (Counter.number (Counter.after first (unnumberedCount (f.calls.take i))))) := by
  obtain ⟨i, hi⟩ := List.getElem?_of_mem h
  have hlt : i < f.calls.length := by
    rw [← f.length_numberCallsFrom first]
    exact (List.getElem?_eq_some_iff.1 hi).1
  obtain ⟨c'', hc'', hunit⟩ := f.unit_numberCallsFrom first (List.getElem?_eq_getElem hlt)
  obtain rfl : c' = c'' := Option.some.inj (hi.symm.trans hc'')
  exact ⟨i, _, List.getElem?_eq_getElem hlt, hunit⟩

theorem unitsInWords_numberCallsInWords (h : f.UnitsInWords) :
    f.numberCallsInWords.function.UnitsInWords := by
  rw [numberCallsInWords_eq h]
  intro c' hc' n hn
  obtain ⟨i, c, hc, hunit⟩ := exists_of_mem_numberCallsFrom hc'
  obtain rfl := Option.some.inj (hn.symm.trans hunit)
  cases hold : c.unit with
  | some m => exact h c (List.mem_of_getElem? hc) m hold
  | none =>
    rw [Option.getD_none, after_ofNat, number_ofNat]
    exact Nat.mod_lt _ (by decide)

theorem unnumberedCount_take_lt {cs : List Call} {i : Nat} {c : Call} (hc : cs[i]? = some c)
    (hunit : c.unit = none) : unnumberedCount (cs.take i) < unnumberedCount cs := by
  obtain ⟨hi, rfl⟩ := List.getElem?_eq_some_iff.1 hc
  have hsplit : cs.take i ++ cs[i] :: cs.drop (i + 1) = cs := by
    rw [List.getElem_cons_drop, List.take_append_drop]
  have happend : unnumberedCount (cs.take i ++ cs[i] :: cs.drop (i + 1)) =
      unnumberedCount (cs.take i) + unnumberedCount (cs[i] :: cs.drop (i + 1)) :=
    List.countP_append
  rw [hsplit, unnumberedCount_cons, hunit, Option.isNone_none, if_pos rfl] at happend
  omega

/-- The new numbers take up no more than the count of the calls without one. -/
theorem firstFreeUnit_numberCalls_le :
    f.numberCalls.1.firstFreeUnit ≤ f.firstFreeUnit + unnumberedCount f.calls := by
  rw [firstFreeUnit_le_iff]
  intro c' hc' n hn
  obtain ⟨i, c, hc, hunit⟩ := exists_of_mem_numberCallsFrom hc'
  obtain rfl := Option.some.inj (hn.symm.trans hunit)
  cases hold : c.unit with
  | some m =>
    have hlt := f.firstFreeUnit_le_iff.1 (Nat.le_refl _) c (List.mem_of_getElem? hc) m hold
    exact Nat.lt_add_right _ hlt
  | none =>
    have hlt := unnumberedCount_take_lt hc hold
    rw [Option.getD_none, Counter.after_nat, Counter.number_nat]
    omega

/-- Once all calls are numbered, there is nothing left to do. -/
theorem numberCallsInWords_of_numbered (h : f.hasUnnumberedCall = false) :
    f.numberCallsInWords = ⟨f, 0, f.firstFreeWord.overflowed⟩ := by
  unfold numberCallsInWords
  simp only [numberCallsFrom_eq_self h, UInt64.sub_self]

/-- `r` is what comes of numbering the calls of `f` in words of 64 bits. -/
structure NumbersInWords (f : Function) (r : WordNumbering) : Prop where
  /-- Unless an addition overflows, each call is numbered once, as it would be without a bound. -/
  once : r.overflowed = false → f.NumbersOnce r.function r.count.toNat
  unbounded : r.overflowed = false → (r.function, r.count.toNat) = f.numberCalls
  /-- An addition overflows exactly if the first number that would be free in the end is no word. -/
  overflow : r.overflowed = true ↔ UInt64.size ≤ f.firstFreeUnit + unnumberedCount f.calls
  /-- Where words come round to zero, each call is still numbered once if words can do so at all. -/
  possible : ∀ (g : Function) (count : UInt64), g.UnitsInWords → f.NumbersOnce g count.toNat →
    f.NumbersOnce r.function r.count.toNat
  /-- If there are too few words, each call has one nevertheless, those in use are kept, and nothing
  else changes. -/
  length : r.function.calls.length = f.calls.length
  unit : ∀ (i : Nat) (c : Call), f.calls[i]? = some c → ∃ c', r.function.calls[i]? = some c' ∧
    c'.unit = some (c.unit.getD
      ((f.firstFreeUnit + unnumberedCount (f.calls.take i)) % UInt64.size))
  unchanged : r.function.unnumbered = f.unnumbered
  words : r.function.UnitsInWords
  /-- A second round finds nothing left to do. -/
  again : r.function.numberCallsInWords.function = r.function ∧
    r.function.numberCallsInWords.count = 0 ∧
    (r.overflowed = false → r.function.numberCallsInWords.overflowed = false)

end Function

end ClockedC
