import ClockedC.Proofs.CallNumbers
import ClockedC.Proofs.Spelling

/-!
# How the names of a function are spelled

The expressions of a function that was read are written in tokens of the source, so their names are
words and their numbers numerals, in the arguments of calls too. No call has a number yet, and
numbering the calls leaves all names as they are.

* `Expr.Written`: an expression is written in well spelled tokens.
* `BlockRead.written`: so are the expressions of a body that was read.
* `Expr.WellSpelled`: the names and numbers of an expression, arguments of calls included.
* `Program.wellSpelled_of_prepare`: the functions of a program with its calls numbered are well
  spelled.
* `Program.units_of_prepare`: the calls of each function are numbered from zero on.
-/

namespace ClockedC

open Scan (Word Numeral)

/-! ## Written expressions -/

/-- The names and numbers of some tokens are spelled as those of a source are. -/
def TokensSpelled (ts : List Token) : Prop :=
  ∀ t ∈ ts, t.symbol.Spelled

theorem TokensSpelled.of_subset {ts us : List Token} (h : TokensSpelled ts) (hus : us ⊆ ts) :
    TokensSpelled us :=
  fun t ht => h t (hus ht)

@[simp] theorem tokensSpelled_nil : TokensSpelled [] := List.forall_mem_nil _

@[simp] theorem tokensSpelled_cons {t : Token} {ts : List Token} :
    TokensSpelled (t :: ts) ↔ t.symbol.Spelled ∧ TokensSpelled ts :=
  List.forall_mem_cons

@[simp] theorem tokensSpelled_append {ts us : List Token} :
    TokensSpelled (ts ++ us) ↔ TokensSpelled ts ∧ TokensSpelled us :=
  List.forall_mem_append

@[simp] theorem tokensSpelled_parenthesized {p q : Position} {ts : List Token} :
    TokensSpelled (parenthesized p ts q) ↔ TokensSpelled ts := by
  simp [parenthesized, Symbol.Spelled]

/-- A call has a word for the name of its function, and its arguments are spelled so too. -/
def Call.Spelled (c : Call) : Prop :=
  Word c.callee.toList ∧ ∀ arg ∈ c.args, arg.Spelled

mutual

theorem ExprAt.calls_spelled : ∀ {k : Nat} {ts : List Token} {e : Expr}, ExprAt k ts e →
    TokensSpelled ts → ∀ c ∈ e.calls, c.Spelled ∧ c.unit = none
  | _, _, _, .tighter _ h, hts => h.calls_spelled hts
  | _, _, _, .binary _ left right, hts => by
    simp only [tokensSpelled_append, tokensSpelled_cons] at hts
    exact List.forall_mem_append.2 ⟨left.calls_spelled hts.1, right.calls_spelled hts.2.2⟩
  | _, _, _, .unary operand, hts => operand.calls_spelled (tokensSpelled_cons.1 hts).2
  | _, _, _, .parens inner, hts => by
    simp only [tokensSpelled_append, tokensSpelled_cons] at hts
    exact inner.calls_spelled hts.1.2
  | _, _, _, .number, _ | _, _, _, .character, _ | _, _, _, .name, _ => List.forall_mem_nil _
  | _, _, _, .call args, hts => by
    simp only [tokensSpelled_append, tokensSpelled_cons] at hts
    obtain ⟨hargs, hcalls⟩ := args.calls_spelled hts.1.2.2
    exact List.forall_mem_cons.2 ⟨⟨⟨hts.1.1, hargs⟩, rfl⟩, hcalls⟩
  | _, _, _, .constant, hts =>
    List.forall_mem_singleton.2
      ⟨⟨(tokensSpelled_cons.1 hts).1, List.forall_mem_nil _⟩, rfl⟩
  | _, _, _, .element index, hts => by
    simp only [tokensSpelled_append, tokensSpelled_cons] at hts
    exact index.calls_spelled hts.1.2.2

theorem ArgumentsAt.calls_spelled : ∀ {ts : List Token} {es : List Expr}, ArgumentsAt ts es →
    TokensSpelled ts → (∀ e ∈ es, e.Spelled) ∧
      ∀ c ∈ Expr.callsOfList es, c.Spelled ∧ c.unit = none
  | _, _, .one h, hts => by
    refine ⟨List.forall_mem_singleton.2 (h.spelled hts), ?_⟩
    exact List.forall_mem_append.2 ⟨h.calls_spelled hts, List.forall_mem_nil _⟩
  | _, _, .more first others, hts => by
    simp only [tokensSpelled_append, tokensSpelled_cons] at hts
    obtain ⟨hes, hcalls⟩ := others.calls_spelled hts.2.2
    exact ⟨List.forall_mem_cons.2 ⟨first.spelled hts.1, hes⟩,
      List.forall_mem_append.2 ⟨first.calls_spelled hts.1, hcalls⟩⟩

end

/-- An expression is written in well spelled tokens. -/
def Expr.Written (e : Expr) : Prop :=
  ∃ ts, ExprAt BinaryOp.loosest ts e ∧ TokensSpelled ts

/-- The names and numbers of an expression are words and numerals, arguments of calls included. -/
structure Expr.WellSpelled (e : Expr) : Prop where
  spelled : e.Spelled
  calls : ∀ c ∈ e.calls, c.Spelled

theorem Expr.Written.wellSpelled {e : Expr} (h : e.Written) : e.WellSpelled := by
  obtain ⟨ts, hat, hts⟩ := h
  exact ⟨hat.spelled hts, fun c hc => (hat.calls_spelled hts c hc).1⟩

theorem Expr.Written.unit_eq_none {e : Expr} (h : e.Written) : ∀ c ∈ e.calls, c.unit = none := by
  obtain ⟨ts, hat, hts⟩ := h
  exact fun c hc => (hat.calls_spelled hts c hc).2

theorem written_one : (Expr.number "1").Written := by
  refine ⟨[⟨.number "1", default⟩], ?_, ?_⟩
  · exact ExprAt.number.loosen (by decide) (by decide)
  · exact List.forall_mem_singleton.2 (.whole (by decide) (by decide))

theorem written_step {n spelling : String} {op : BinaryOp} (hn : Word n.toList)
    (hstep : StepSpelling spelling op) : (Expr.binary op (.name n) (.number "1")).Written := by
  refine ⟨_, hstep.exprAt n default default default, ?_⟩
  have hone : Numeral "1".toList := .whole (by decide) (by decide)
  exact tokensSpelled_cons.2
    ⟨hn, tokensSpelled_cons.2 ⟨trivial, List.forall_mem_singleton.2 hone⟩⟩

/-! ## Written statements -/

/-- The name that a move sets, if it sets one. -/
def Move.base? : Move → Option String
  | set target _ => some target.base
  | result .. | test _ => none

/-- The expressions of a move are written, and what is set has a word for a name. -/
structure Move.Written (m : Move) : Prop where
  base : ∀ n ∈ m.base?, Word n.toList
  expressions : ∀ e ∈ m.expressions, e.Written

/-- What some statements do is written, and what they declare has words for names. -/
structure StatementsWritten (ms : List Move) (ds : List Declaration) : Prop where
  moves : ∀ m ∈ ms, m.Written
  names : ∀ d ∈ ds, Word d.name.toList

namespace StatementsWritten

theorem nil : StatementsWritten [] [] :=
  ⟨List.forall_mem_nil _, List.forall_mem_nil _⟩

theorem append {ms ms' : List Move} {ds ds' : List Declaration} (h : StatementsWritten ms ds)
    (h' : StatementsWritten ms' ds') : StatementsWritten (ms ++ ms') (ds ++ ds') :=
  ⟨List.forall_mem_append.2 ⟨h.moves, h'.moves⟩, List.forall_mem_append.2 ⟨h.names, h'.names⟩⟩

theorem cons {m : Move} {ms : List Move} {ds : List Declaration} (hm : m.Written)
    (h : StatementsWritten ms ds) : StatementsWritten (m :: ms) ds :=
  ⟨List.forall_mem_cons.2 ⟨hm, h.moves⟩, h.names⟩

theorem single {m : Move} (hm : m.Written) : StatementsWritten [m] [] :=
  cons hm nil

end StatementsWritten

theorem Move.written_test {e : Expr} (h : e.Written) : (Move.test e).Written := by
  refine ⟨?_, List.forall_mem_singleton.2 h⟩
  intro n hn
  cases hn

theorem Move.written_result {signal : String} {e : Expr} (h : e.Written) :
    (Move.result signal e).Written := by
  refine ⟨?_, List.forall_mem_singleton.2 h⟩
  intro n hn
  cases hn

theorem Move.written_setName {n : String} {e : Expr} (hn : Word n.toList) (h : e.Written) :
    (Move.set (.name n) e).Written := by
  refine ⟨?_, List.forall_mem_singleton.2 h⟩
  intro m hm
  cases hm
  exact hn

theorem Move.written_setElement {n text : String} {i e : Expr} (hn : Word n.toList)
    (hi : i.Written) (h : e.Written) : (Move.set (.element n i text) e).Written := by
  refine ⟨?_, List.forall_mem_cons.2 ⟨hi, List.forall_mem_singleton.2 h⟩⟩
  intro m hm
  cases hm
  exact hn

theorem DeclarationForm.written {ts : List Token} {d : Declaration} (h : DeclarationForm ts d)
    (hts : TokensSpelled ts) : StatementsWritten d.moves [d] := by
  cases h with
  | @mk type n us form _ _ _ _ hinit =>
    simp only [tokensSpelled_append, tokensSpelled_cons] at hts
    refine ⟨?_, List.forall_mem_singleton.2 hts.2.1⟩
    cases hinit with
    | value he =>
      exact List.forall_mem_singleton.2
        (Move.written_setName hts.2.1 ⟨_, he, (tokensSpelled_cons.1 hts.2.2.1).2⟩)
    | scalar | array | elements => exact List.forall_mem_nil _

theorem AssignmentForm.written {ts : List Token} {a : Assignment} (h : AssignmentForm ts a)
    (hts : TokensSpelled ts) : a.move.Written := by
  cases h with
  | name value =>
    simp only [tokensSpelled_cons] at hts
    exact Move.written_setName hts.1 ⟨_, value, hts.2.2⟩
  | element index value =>
    simp only [tokensSpelled_append, tokensSpelled_cons] at hts
    exact Move.written_setElement hts.1 ⟨_, index, hts.2.2.1⟩ ⟨_, value, hts.2.2.2.2.2⟩

theorem ForStartRead.written {ts : List Token} {o : List (List Token)} {init : Option ForStart}
    (h : ForStartRead ts o init) (hts : TokensSpelled ts) :
    StatementsWritten ((init.map ForStart.moves).getD [])
      ((init.map ForStart.declarations).getD []) := by
  cases h with
  | leftOut => exact .nil
  | form h =>
    cases h with
    | nothing => exact .nil
    | declare h => exact h.written hts
    | assign value =>
      simp only [tokensSpelled_append, tokensSpelled_cons] at hts
      exact .single (Move.written_setName hts.1 ⟨_, value, hts.2.2.1⟩)

theorem ForConditionForm.written {ts : List Token} {e : Expr} (h : ForConditionForm ts e)
    (hts : TokensSpelled ts) : e.Written := by
  cases h with
  | always => exact written_one
  | expr h => exact ⟨_, h, (tokensSpelled_append.1 hts).1⟩

theorem ForIncrementRead.written {ts : List Token} {o : List (List Token)}
    {increment : Option Assignment} (h : ForIncrementRead ts o increment)
    (hts : TokensSpelled ts) : ∀ m ∈ (increment.map Assignment.move).toList, m.Written := by
  cases h with
  | leftOut => exact List.forall_mem_nil _
  | form h =>
    cases h with
    | nothing => exact List.forall_mem_nil _
    | @stepAfter n _ _ _ _ hstep =>
      have hn : Word n.toList := (tokensSpelled_cons.1 hts).1
      exact List.forall_mem_singleton.2 (Move.written_setName hn (written_step hn hstep))
    | @stepBefore n _ _ _ _ hstep =>
      have hn : Word n.toList := (tokensSpelled_cons.1 (tokensSpelled_cons.1 hts).2).1
      exact List.forall_mem_singleton.2 (Move.written_setName hn (written_step hn hstep))
    | assign value =>
      simp only [tokensSpelled_cons] at hts
      exact List.forall_mem_singleton.2 (Move.written_setName hts.1 ⟨_, value, hts.2.2⟩)

mutual

theorem StmtRead.written : ∀ {ts : List Token} {o : List (List Token)} {s : Stmt},
    StmtRead ts o s → TokensSpelled ts → StatementsWritten s.moves s.declarations
  | _, _, _, .declare h, hts => h.written hts
  | _, _, _, .assign h, hts => .single (h.written (tokensSpelled_append.1 hts).1)
  | _, _, _, .ret .nothing, _ => .nil
  | _, _, _, .ret (.value h), hts => by
    simp only [tokensSpelled_append, tokensSpelled_cons] at hts
    exact .single (Move.written_result ⟨_, h, hts.2.1⟩)
  | _, _, _, .branch condition body otherwise, hts => by
    simp only [tokensSpelled_append, tokensSpelled_cons, tokensSpelled_parenthesized] at hts
    exact .cons (Move.written_test ⟨_, condition, hts.2.1⟩)
      ((body.written hts.2.2.2.1).append (otherwise.written hts.2.2.2.2))
  | _, _, _, .whileLoop condition body, hts => by
    simp only [tokensSpelled_append, tokensSpelled_cons, tokensSpelled_parenthesized] at hts
    exact .cons (Move.written_test ⟨_, condition, hts.2.1⟩) (body.written hts.2.2.2)
  | _, _, _, .forLoop start condition increment body, hts => by
    simp only [tokensSpelled_append, tokensSpelled_cons, tokensSpelled_parenthesized] at hts
    obtain ⟨-, ⟨hstart, hcondition, hincrement⟩, -, hbody⟩ := hts
    have hmoves := (body.written hbody).append ⟨increment.written hincrement, List.forall_mem_nil _⟩
    rw [List.append_nil] at hmoves
    exact (start.written hstart).append
      (.cons (Move.written_test (condition.written hcondition)) hmoves)
  | _, _, _, .jump, _ => .nil

theorem AlternativeRead.written : ∀ {ts : List Token} {o : List (List Token)} {a : Alternative},
    AlternativeRead ts o a → TokensSpelled ts → StatementsWritten a.moves a.declarations
  | _, _, _, .none, _ => .nil
  | _, _, _, .body body, hts => by
    simp only [tokensSpelled_cons] at hts
    exact body.written hts.2.2
  | _, _, _, .branch condition body otherwise, hts => by
    simp only [tokensSpelled_append, tokensSpelled_cons, tokensSpelled_parenthesized] at hts
    exact .cons (Move.written_test ⟨_, condition, hts.2.2.1⟩)
      ((body.written hts.2.2.2.2.1).append (otherwise.written hts.2.2.2.2.2))

/-- What is read as a body is written in the tokens it is read from. -/
theorem BlockRead.written : ∀ {depth : Nat} {ts : List Token} {o : List (List Token)} {ss : Block},
    BlockRead depth ts o ss → TokensSpelled ts →
      StatementsWritten (Block.moves ss) (Block.declarations ss)
  | _, _, _, _, .last, _ => .nil
  | _, _, _, _, .close others, hts | _, _, _, _, .open others, hts =>
    others.written (tokensSpelled_cons.1 hts).2
  | _, _, _, _, .stmt first others, hts => by
    obtain ⟨hfirst, hothers⟩ := tokensSpelled_append.1 hts
    exact (first.written hfirst).append (others.written hothers)
  | _, _, _, _, .leftOut _ others, hts => others.written (tokensSpelled_append.1 hts).2

end

/-! ## Written functions -/

/-- What the statements of a function do is written, and its locals have words for names. -/
def Function.Written (f : Function) : Prop :=
  StatementsWritten (Block.moves f.body) f.declarations

theorem tokensSpelled_withEnd {ts : List Token} (h : TokensSpelled ts) :
    TokensSpelled (Parse.withEnd ts) := by
  unfold Parse.withEnd
  split
  · exact List.forall_mem_singleton.2 trivial
  · split
    · exact h
    · exact tokensSpelled_append.2 ⟨h, List.forall_mem_singleton.2 trivial⟩

theorem Program.written_of_ofSource {source : String} {program : Program}
    (h : (Program.ofSource source).outcome = .ok program) :
    ∀ f ∈ program.functions, f.Written := by
  intro f hf
  obtain ⟨ts, hscan, hread⟩ := Program.readFrom_of_ofSource h
  obtain ⟨taken, o, htaken, hbody⟩ := (hread f hf).body
  exact hbody.written ((tokensSpelled_withEnd (spelled_of_tokens hscan)).of_subset htaken)

/-! ## Numbered calls -/

namespace Expr

theorem Spelled.numberCalls : ∀ {e : Expr} (next : Nat), e.Spelled → (e.numberCalls next).1.Spelled
  | number _, _, h | name _, _, h => h
  | element _ _ _, next, ⟨hbase, hindex⟩ => ⟨hbase, hindex.numberCalls next⟩
  | call _ _ (some _) _, _, h | call _ _ none _, _, h => h
  | unary _ operand, next, h => Spelled.numberCalls (e := operand) next h
  | binary _ left _, next, ⟨hleft, hright⟩ =>
    ⟨hleft.numberCalls next, hright.numberCalls (left.numberCalls next).2⟩

theorem spelled_numberCallsOfList : ∀ {es : List Expr} (next : Nat), (∀ e ∈ es, e.Spelled) →
    ∀ e ∈ (numberCallsOfList next es).1, e.Spelled
  | [], _, h => h
  | e :: _, next, h => by
    obtain ⟨he, hes⟩ := List.forall_mem_cons.1 h
    exact List.forall_mem_cons.2
      ⟨he.numberCalls next, spelled_numberCallsOfList (e.numberCalls next).2 hes⟩

mutual

theorem calls_spelled_numberCalls : ∀ {e : Expr} (next : Nat), (∀ c ∈ e.calls, c.Spelled) →
    ∀ c ∈ (e.numberCalls next).1.calls, c.Spelled
  | number _, _, h | name _, _, h => h
  | element _ index _, next, h => calls_spelled_numberCalls (e := index) next h
  | call callee args (some n) p, next, h => by
    obtain ⟨⟨hcallee, hargs⟩, hcalls⟩ := List.forall_mem_cons.1 h
    exact List.forall_mem_cons.2 ⟨⟨hcallee, spelled_numberCallsOfList next hargs⟩,
      callsOfList_spelled_numberCalls next hcalls⟩
  | call callee args none p, next, h => by
    obtain ⟨⟨hcallee, hargs⟩, hcalls⟩ := List.forall_mem_cons.1 h
    exact List.forall_mem_cons.2 ⟨⟨hcallee, spelled_numberCallsOfList (next + 1) hargs⟩,
      callsOfList_spelled_numberCalls (next + 1) hcalls⟩
  | unary _ operand, next, h => calls_spelled_numberCalls (e := operand) next h
  | binary _ left right, next, h => by
    obtain ⟨hleft, hright⟩ := List.forall_mem_append.1 h
    exact List.forall_mem_append.2 ⟨calls_spelled_numberCalls next hleft,
      calls_spelled_numberCalls (left.numberCalls next).2 hright⟩

theorem callsOfList_spelled_numberCalls : ∀ {es : List Expr} (next : Nat),
    (∀ c ∈ callsOfList es, c.Spelled) →
    ∀ c ∈ callsOfList (numberCallsOfList next es).1, c.Spelled
  | [], _, h => h
  | e :: es, next, h => by
    obtain ⟨he, hes⟩ := List.forall_mem_append.1 h
    exact List.forall_mem_append.2 ⟨calls_spelled_numberCalls next he,
      callsOfList_spelled_numberCalls (e.numberCalls next).2 hes⟩

end

theorem WellSpelled.numberCalls {e : Expr} (h : e.WellSpelled) (next : Nat) :
    (e.numberCalls next).1.WellSpelled :=
  ⟨h.spelled.numberCalls next, calls_spelled_numberCalls next h.calls⟩

end Expr

/-- What a move sets has a word for a name, and its expressions are well spelled. -/
structure Move.WellSpelled (m : Move) : Prop where
  base : ∀ n ∈ m.base?, Word n.toList
  expressions : ∀ e ∈ m.expressions, e.WellSpelled

theorem Move.Written.numberCalls {m : Move} (h : m.Written) (next : Nat) :
    (m.numberCalls next).1.WellSpelled := by
  obtain ⟨hbase, hexpressions⟩ := h
  cases m with
  | result signal value =>
    have hvalue := (List.forall_mem_singleton.1 hexpressions).wellSpelled.numberCalls next
    exact ⟨hbase, List.forall_mem_singleton.2 hvalue⟩
  | test condition =>
    have hcondition := (List.forall_mem_singleton.1 hexpressions).wellSpelled.numberCalls next
    exact ⟨hbase, List.forall_mem_singleton.2 hcondition⟩
  | set target value =>
    cases target with
    | name n =>
      have hvalue := (List.forall_mem_singleton.1 hexpressions).wellSpelled.numberCalls next
      exact ⟨hbase, List.forall_mem_singleton.2 hvalue⟩
    | element base index text =>
      obtain ⟨hindex, hvalue⟩ := List.forall_mem_cons.1 hexpressions
      exact ⟨hbase, List.forall_mem_cons.2 ⟨hindex.wellSpelled.numberCalls next,
        List.forall_mem_singleton.2
          ((List.forall_mem_singleton.1 hvalue).wellSpelled.numberCalls _)⟩⟩

/-- The names of a function are words and its numbers are numerals. -/
structure Function.WellSpelled (f : Function) : Prop where
  moves : ∀ m ∈ Block.moves f.body, m.WellSpelled
  names : ∀ d ∈ f.declarations, Word d.name.toList

theorem Function.Written.wellSpelled {f : Function} (h : f.Written) : f.WellSpelled where
  moves m hm := ⟨(h.moves m hm).base, fun e he => ((h.moves m hm).expressions e he).wellSpelled⟩
  names := h.names

theorem Function.Written.unit_eq_none {f : Function} (h : f.Written) :
    ∀ c ∈ f.calls, c.unit = none := by
  intro c hc
  rw [Function.calls, ← Block.flatMap_moves] at hc
  obtain ⟨e, he, hce⟩ := List.mem_flatMap.1 hc
  obtain ⟨m, hm, hem⟩ := List.mem_flatMap.1 he
  exact ((h.moves m hm).expressions e hem).unit_eq_none c hce

theorem Function.Written.wellSpelled_numberCalls {f : Function} (h : f.Written) :
    f.numberCalls.1.WellSpelled := by
  constructor
  · intro m hm
    have hmoves : Block.moves f.numberCalls.1.body =
        (Move.numberCallsOfList f.firstFreeUnit (Block.moves f.body)).1 := by
      rw [Block.moves_numberCalls]
      rfl
    rw [hmoves] at hm
    obtain ⟨m₀, hm₀, k, rfl⟩ := Move.exists_of_mem_numberCallsOfList hm
    exact (h.moves m₀ hm₀).numberCalls k
  · intro d hd
    have hname : d.name ∈ f.declarations.map Declaration.name := by
      rw [Function.declarations, ← Block.names_numberCalls f.body f.firstFreeUnit]
      exact List.mem_map_of_mem hd
    obtain ⟨d₀, hd₀, heq⟩ := List.mem_map.1 hname
    rw [← heq]
    exact h.names d₀ hd₀

theorem Function.WellSpelled.calls {f : Function} (h : f.WellSpelled) :
    ∀ c ∈ f.calls, c.Spelled := by
  intro c hc
  rw [Function.calls, ← Block.flatMap_moves] at hc
  obtain ⟨e, he, hce⟩ := List.mem_flatMap.1 hc
  obtain ⟨m, hm, hem⟩ := List.mem_flatMap.1 he
  exact ((h.moves m hm).expressions e hem).calls c hce

namespace Program

variable {source : String} {program : Program} {f : Function}

theorem wellSpelled_of_prepare (h : (Program.prepare source).outcome = .ok program)
    (hf : f ∈ program.functions) : f.WellSpelled := by
  obtain ⟨p, hp, rfl⟩ := Program.outcome_prepare_eq_ok.1 h
  obtain ⟨g, hg, rfl⟩ := List.mem_map.1 hf
  exact (written_of_ofSource hp g hg).wellSpelled_numberCalls

/-- The calls of a function are numbered from zero on. -/
theorem units_of_prepare (h : (Program.prepare source).outcome = .ok program)
    (hf : f ∈ program.functions) :
    f.calls.map Call.unit = (List.range f.calls.length).map some := by
  obtain ⟨p, hp, rfl⟩ := Program.outcome_prepare_eq_ok.1 h
  obtain ⟨g, hg, rfl⟩ := List.mem_map.1 hf
  have hunits := g.units_numberCalls_of_none (written_of_ofSource hp g hg).unit_eq_none
  have hlength := congrArg List.length hunits
  simp only [List.length_map, List.length_range] at hlength
  rw [hlength]
  exact hunits

end Program

end ClockedC
