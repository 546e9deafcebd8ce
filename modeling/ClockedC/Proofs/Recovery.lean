import ClockedC.Proofs.ProgramParser

/-!
# Reading with tokens left out

A program may be read although some of it is not understood: what is no statement is passed over,
and so is a part of a `for` header that has none of the known forms. This file says what is read
then, and which stretches of tokens are left out.

* `openAfter` counts open marks, and `Balanced` says that a stretch closes what it opens.
* `LeftOut`, `ForStartRead` and `ForIncrementRead` say which stretches are left out.
* `StmtRead` and `BlockRead` are statements and bodies, with the list of all stretches left out.
* `Parse.block_read`: the body after an opening brace is read as one of these.
* `Program.readFrom_of_ofSource`: the functions that are read pass the static checks, and their
  bodies are read from tokens of the source.
-/

namespace ClockedC

open Cursor

/-! ## Nesting -/

/-- How many marks are open after some tokens, when `depth` are open before them. There is no answer
where a mark is closed that is not open. -/
def openAfter (opening closing : Punct) : (depth : Nat) → List Token → Option Nat
  | depth, [] => some depth
  | depth, t :: ts =>
    if t.symbol = .punct opening then openAfter opening closing (depth + 1) ts
    else if t.symbol = .punct closing then
      if depth = 0 then none else openAfter opening closing (depth - 1) ts
    else openAfter opening closing depth ts

/-- Each mark that is opened in a stretch is closed in it, and no other. -/
def Balanced (opening closing : Punct) (ts : List Token) : Prop :=
  openAfter opening closing 0 ts = some 0

instance (opening closing : Punct) (ts : List Token) : Decidable (Balanced opening closing ts) :=
  inferInstanceAs (Decidable (_ = _))

section Nesting

variable {opening closing : Punct} {depth : Nat} {t : Token} {ts us : List Token}

theorem openAfter_open (ht : t.symbol = .punct opening) :
    openAfter opening closing depth (t :: ts) = openAfter opening closing (depth + 1) ts := by
  rw [openAfter, if_pos ht]

theorem openAfter_close (hne : opening ≠ closing) (ht : t.symbol = .punct closing) :
    openAfter opening closing (depth + 1) (t :: ts) = openAfter opening closing depth ts := by
  have hopen : t.symbol ≠ .punct opening := by
    rw [ht]
    exact fun h => hne (Symbol.punct.inj h).symm
  rw [openAfter, if_neg hopen, if_pos ht, if_neg (Nat.succ_ne_zero depth)]
  rfl

theorem openAfter_other (hopen : t.symbol ≠ .punct opening) (hclose : t.symbol ≠ .punct closing) :
    openAfter opening closing depth (t :: ts) = openAfter opening closing depth ts := by
  rw [openAfter, if_neg hopen, if_neg hclose]

theorem openAfter_append (depth : Nat) (ts us : List Token) :
    openAfter opening closing depth (ts ++ us) =
      (openAfter opening closing depth ts).bind fun d => openAfter opening closing d us := by
  induction ts generalizing depth with
  | nil => rfl
  | cons t ts ih =>
    rw [List.cons_append, openAfter, openAfter]
    split
    · exact ih _
    · split
      · split
        · rfl
        · exact ih _
      · exact ih _

/-- Marks that were open before a stretch stay open. -/
theorem openAfter_add {after : Nat} (more : Nat)
    (h : openAfter opening closing depth ts = some after) :
    openAfter opening closing (depth + more) ts = some (after + more) := by
  induction ts generalizing depth with
  | nil =>
    cases h
    rfl
  | cons t ts ih =>
    by_cases hopen : t.symbol = .punct opening
    · rw [openAfter_open hopen] at h ⊢
      rw [Nat.add_right_comm]
      exact ih h
    by_cases hclose : t.symbol = .punct closing
    · rw [openAfter, if_neg hopen, if_pos hclose] at h ⊢
      by_cases hdepth : depth = 0
      · rw [if_pos hdepth] at h
        cases h
      · rw [if_neg hdepth] at h
        rw [if_neg (by omega), show depth + more - 1 = depth - 1 + more by omega]
        exact ih h
    · rw [openAfter_other hopen hclose] at h ⊢
      exact ih h

theorem Balanced.openAfter_eq (h : Balanced opening closing ts) (depth : Nat) :
    openAfter opening closing depth ts = some depth := by
  have hmore := openAfter_add depth h
  rwa [Nat.zero_add] at hmore

theorem Balanced.append (h : Balanced opening closing ts) (h' : Balanced opening closing us) :
    Balanced opening closing (ts ++ us) := by
  unfold Balanced
  rw [openAfter_append, h.openAfter_eq]
  exact h'

/-- A stretch without marks is balanced. -/
theorem balanced_of_forall
    (h : ∀ t ∈ ts, t.symbol ≠ .punct opening ∧ t.symbol ≠ .punct closing) :
    Balanced opening closing ts := by
  induction ts with
  | nil => rfl
  | cons t ts ih =>
    obtain ⟨⟨hopen, hclose⟩, hts⟩ := List.forall_mem_cons.mp h
    unfold Balanced
    rw [openAfter_other hopen hclose]
    exact ih hts

end Nesting

/-! ## Stretches that are left out -/

/-- The rest of a statement that is left out. It ends with a semicolon, or before a closing brace,
which is what comes next. -/
inductive StatementTail : List Token → (next : Symbol) → Prop
  | semicolon {ts : List Token} {p : Position} {next : Symbol}
      (hts : ∀ t ∈ ts, t.symbol ≠ .punct .semicolon ∧ t.symbol ≠ .punct .closeBrace) :
      StatementTail (ts ++ [⟨.punct .semicolon, p⟩]) next
  | brace {ts : List Token}
      (hts : ∀ t ∈ ts, t.symbol ≠ .punct .semicolon ∧ t.symbol ≠ .punct .closeBrace) :
      StatementTail ts (.punct .closeBrace)

theorem StatementTail.cons {t : Token} {ts : List Token} {next : Symbol}
    (hsemicolon : t.symbol ≠ .punct .semicolon) (hbrace : t.symbol ≠ .punct .closeBrace)
    (h : StatementTail ts next) : StatementTail (t :: ts) next := by
  cases h with
  | semicolon hts =>
    rw [← List.cons_append]
    exact .semicolon (List.forall_mem_cons.2 ⟨⟨hsemicolon, hbrace⟩, hts⟩)
  | brace hts => exact .brace (List.forall_mem_cons.2 ⟨⟨hsemicolon, hbrace⟩, hts⟩)

/-- The symbols that no statement begins with. The braces and the semicolon, of which each is looked
at on its own, are not among them. -/
def Symbol.startsNoStatement : Symbol → Bool
  | .keyword (.type .void) | .keyword .elseKw => true
  | .keyword _ | .name _ | .eof => false
  | .punct .openBrace | .punct .closeBrace | .punct .semicolon => false
  | .punct _ | .number _ | .character _ | .string _ | .operator _ => true

/-- A stretch that is left out where a statement is looked for, and the symbol that comes next. A
name, or the element of an array, is left out where no `=` follows it. -/
inductive LeftOut : List Token → (next : Symbol) → Prop
  | semicolon {p : Position} {next : Symbol} : LeftOut [⟨.punct .semicolon, p⟩] next
  | foreign {t : Token} {ts : List Token} {next : Symbol}
      (ht : t.symbol.startsNoStatement = true) (tail : StatementTail ts next) :
      LeftOut (t :: ts) next
  | name {n : String} {p : Position} {ts : List Token} {next : Symbol}
      (hbracket : symbol ts ≠ .punct .openBracket) (hassign : symbol ts ≠ .operator "=")
      (tail : StatementTail ts next) : LeftOut (⟨.name n, p⟩ :: ts) next
  | element {n : String} {ts us : List Token} {i : Expr} {p q r : Position} {next : Symbol}
      (index : ExprAt BinaryOp.loosest ts i) (hassign : symbol us ≠ .operator "=")
      (tail : StatementTail us next) :
      LeftOut (⟨.name n, p⟩ :: ⟨.punct .openBracket, q⟩ :: (ts ++ ⟨.punct .closeBracket, r⟩ :: us))
        next

/-- What the start of a `for` loop can begin with. -/
def OpensForStart (ts : List Token) : Prop :=
  (∃ p us, ts = ⟨.punct .semicolon, p⟩ :: us) ∨
  (∃ n p q us, ts = ⟨.name n, p⟩ :: ⟨.operator "=", q⟩ :: us) ∨
  ∃ type p us, type ≠ .void ∧ ts = ⟨.keyword (.type type), p⟩ :: us

/-- What the increment of a `for` loop can begin with, or the parenthesis where there is none. -/
def OpensForIncrement (ts : List Token) : Prop :=
  (∃ p us, ts = ⟨.punct .closeParen, p⟩ :: us) ∨
  (∃ s p s' q n op us, ts = ⟨s, p⟩ :: ⟨s', q⟩ :: us ∧ Parse.stepOf? s s' = some (n, op)) ∨
  ∃ n p q us, ts = ⟨.name n, p⟩ :: ⟨.operator "=", q⟩ :: us

theorem OpensForStart.append {ts : List Token} (h : OpensForStart ts) (rest : List Token) :
    OpensForStart (ts ++ rest) := by
  rcases h with ⟨p, us, rfl⟩ | ⟨n, p, q, us, rfl⟩ | ⟨type, p, us, htype, rfl⟩
  · exact .inl ⟨p, us ++ rest, rfl⟩
  · exact .inr (.inl ⟨n, p, q, us ++ rest, rfl⟩)
  · exact .inr (.inr ⟨type, p, us ++ rest, htype, rfl⟩)

theorem OpensForIncrement.append {ts : List Token} (h : OpensForIncrement ts)
    (rest : List Token) : OpensForIncrement (ts ++ rest) := by
  rcases h with ⟨p, us, rfl⟩ | ⟨s, p, s', q, n, op, us, rfl, hstep⟩ | ⟨n, p, q, us, rfl⟩
  · exact .inl ⟨p, us ++ rest, rfl⟩
  · exact .inr (.inl ⟨s, p, s', q, n, op, us ++ rest, rfl, hstep⟩)
  · exact .inr (.inr ⟨n, p, q, us ++ rest, rfl⟩)

/-- What stands before the condition of a `for` loop, up to the next semicolon where it is left
out. -/
inductive ForStartRead : List Token → (omitted : List (List Token)) → Option ForStart → Prop
  | form {ts : List Token} {start : Option ForStart} (h : ForStartForm ts start) :
      ForStartRead ts [] start
  | leftOut {ts : List Token} {p : Position} (hts : ∀ t ∈ ts, t.symbol ≠ .punct .semicolon)
      (hopens : ¬ OpensForStart (ts ++ [⟨.punct .semicolon, p⟩])) :
      ForStartRead (ts ++ [⟨.punct .semicolon, p⟩]) [ts ++ [⟨.punct .semicolon, p⟩]] none

/-- What stands after the condition of a `for` loop, up to the parenthesis that closes the header
where it is left out. -/
inductive ForIncrementRead :
    List Token → (omitted : List (List Token)) → Option Assignment → Prop
  | form {ts : List Token} {increment : Option Assignment} (h : ForIncrementForm ts increment) :
      ForIncrementRead ts [] increment
  | leftOut {ts : List Token} {p : Position} (hts : Balanced .openParen .closeParen ts)
      (hopens : ¬ OpensForIncrement (ts ++ [⟨.punct .closeParen, p⟩])) :
      ForIncrementRead ts [ts] none

mutual

/-- A statement that is read, with the stretches that are left out in it. -/
inductive StmtRead : List Token → (omitted : List (List Token)) → Stmt → Prop
  | declare {ts : List Token} {d : Declaration} (h : DeclarationForm ts d) :
      StmtRead ts [] (.declare d)
  | assign {ts : List Token} {a : Assignment} {p : Position} (h : AssignmentForm ts a) :
      StmtRead (ts ++ [⟨.punct .semicolon, p⟩]) [] (.assign a)
  | ret {ts : List Token} {value : Option Expr} {p q : Position} (h : ReturnedForm ts value) :
      StmtRead (⟨.keyword .returnKw, p⟩ :: (ts ++ [⟨.punct .semicolon, q⟩])) [] (.ret value p)
  | branch {c b a : List Token} {o o' : List (List Token)} {e : Expr} {ss : Block}
      {alt : Alternative} {p q r s : Position} (condition : ExprAt BinaryOp.loosest c e)
      (body : BlockRead 0 b o ss) (otherwise : AlternativeRead a o' alt) :
      StmtRead (⟨.keyword .ifKw, p⟩ ::
        (parenthesized q c r ++ ⟨.punct .openBrace, s⟩ :: (b ++ a))) (o ++ o')
        (.branch e ss alt p)
  | whileLoop {c b : List Token} {o : List (List Token)} {e : Expr} {ss : Block}
      {p q r s : Position} (condition : ExprAt BinaryOp.loosest c e) (body : BlockRead 0 b o ss) :
      StmtRead (⟨.keyword .whileKw, p⟩ ::
        (parenthesized q c r ++ ⟨.punct .openBrace, s⟩ :: b)) o (.whileLoop e ss p)
  | forLoop {i c n b : List Token} {o o' o'' : List (List Token)} {init : Option ForStart}
      {e : Expr} {inc : Option Assignment} {ss : Block} {p q r s : Position}
      (start : ForStartRead i o init) (condition : ForConditionForm c e)
      (increment : ForIncrementRead n o' inc) (body : BlockRead 0 b o'' ss) :
      StmtRead (⟨.keyword .forKw, p⟩ ::
        (parenthesized q (i ++ (c ++ n)) r ++ ⟨.punct .openBrace, s⟩ :: b)) (o ++ (o' ++ o''))
        (.forLoop init e ss inc p)
  | jump {j : Jump} {p q : Position} :
      StmtRead [⟨.keyword (.jump j), p⟩, ⟨.punct .semicolon, q⟩] [] (.jump j p)

/-- What follows the body of a branch, with the stretches that are left out in it. -/
inductive AlternativeRead : List Token → (omitted : List (List Token)) → Alternative → Prop
  | none : AlternativeRead [] [] .none
  | body {b : List Token} {o : List (List Token)} {ss : Block} {p q : Position}
      (body : BlockRead 0 b o ss) :
      AlternativeRead (⟨.keyword .elseKw, p⟩ :: ⟨.punct .openBrace, q⟩ :: b) o (.body ss)
  | branch {c b a : List Token} {o o' : List (List Token)} {e : Expr} {ss : Block}
      {alt : Alternative} {p q r s t : Position} (condition : ExprAt BinaryOp.loosest c e)
      (body : BlockRead 0 b o ss) (otherwise : AlternativeRead a o' alt) :
      AlternativeRead (⟨.keyword .elseKw, p⟩ :: ⟨.keyword .ifKw, q⟩ ::
        (parenthesized r c s ++ ⟨.punct .openBrace, t⟩ :: (b ++ a))) (o ++ o')
        (.branch e ss alt p)

/-- The rest of a body in which `depth` braces are open, with the brace that closes the body and the
stretches that are left out. -/
inductive BlockRead : (depth : Nat) → List Token → (omitted : List (List Token)) → Block → Prop
  | last {p : Position} : BlockRead 0 [⟨.punct .closeBrace, p⟩] [] []
  | close {depth : Nat} {ts : List Token} {o : List (List Token)} {ss : Block} {p : Position}
      (others : BlockRead depth ts o ss) :
      BlockRead (depth + 1) (⟨.punct .closeBrace, p⟩ :: ts) o ss
  | open {depth : Nat} {ts : List Token} {o : List (List Token)} {ss : Block} {p : Position}
      (others : BlockRead (depth + 1) ts o ss) :
      BlockRead depth (⟨.punct .openBrace, p⟩ :: ts) o ss
  | stmt {depth : Nat} {ts us : List Token} {o o' : List (List Token)} {s : Stmt} {ss : Block}
      (first : StmtRead ts o s) (others : BlockRead depth us o' ss) :
      BlockRead depth (ts ++ us) (o ++ o') (s :: ss)
  | leftOut {depth : Nat} {ts us : List Token} {o : List (List Token)} {ss : Block}
      (first : LeftOut ts (symbol us)) (others : BlockRead depth us o ss) :
      BlockRead depth (ts ++ us) (ts :: o) ss

end

theorem BlockRead.ne_nil : ∀ {depth : Nat} {ts : List Token} {o : List (List Token)} {ss : Block},
    BlockRead depth ts o ss → ts ≠ []
  | _, _, _, _, .last | _, _, _, _, .close _ | _, _, _, _, .open _ => List.cons_ne_nil _ _
  | _, _, _, _, .stmt _ others | _, _, _, _, .leftOut _ others =>
    List.append_ne_nil_of_right_ne_nil _ others.ne_nil

/-! ## Runs with a log -/

section Logs

variable {α γ : Type} {ts mid rest : List Token} {a b : α}

theorem Logged.outcome_lift {x : Except ParseError α} : (liftM x : Logged α).outcome = x := rfl

theorem reads_outcome_bind {x : Logged γ} {f : γ → Logged (Read α ts)} :
    Reads (x >>= f).outcome a rest ↔ ∃ c, x.outcome = .ok c ∧ Reads (f c).outcome a rest := by
  simp only [Reads, Logged.outcome_bind_eq_ok]
  constructor
  · rintro ⟨h, c, hx, hf⟩
    exact ⟨c, hx, h, hf⟩
  · rintro ⟨c, hx, h, hf⟩
    exact ⟨h, c, hx, hf⟩

theorem passes_outcome_bind {x : Logged γ} {f : γ → Logged (Pass α ts)} :
    Passes (x >>= f).outcome a rest ↔ ∃ c, x.outcome = .ok c ∧ Passes (f c).outcome a rest := by
  simp only [Passes, Logged.outcome_bind_eq_ok]
  constructor
  · rintro ⟨h, c, hx, hf⟩
    exact ⟨c, hx, h, hf⟩
  · rintro ⟨c, hx, h, hf⟩
    exact ⟨h, c, hx, hf⟩

theorem reads_outcome_pure {h : Beyond mid ts} :
    Reads (pure ⟨b, mid, h⟩ : Logged (Read α ts)).outcome a rest ↔ a = b ∧ rest = mid := reads_ok

theorem passes_outcome_pure {h : Left mid ts} :
    Passes (pure ⟨b, mid, h⟩ : Logged (Pass α ts)).outcome a rest ↔ a = b ∧ rest = mid := passes_ok

/-- Where both parts of a computation say nothing, so does the whole. -/
theorem Logged.log_bind_eq_nil {x : Logged γ} {f : γ → Logged α} (hx : x.log = [])
    (hf : ∀ c, (f c).log = []) : (x >>= f).log = [] := by
  show (x.bind f).log = []
  unfold Logged.bind
  cases x.outcome with
  | error e => exact hx
  | ok c =>
    show x.log ++ (f c).log = []
    rw [hx, hf c, List.append_nil]

theorem Passes.quietly {x : Logged (Pass α ts)} (h : Passes x.outcome a rest)
    (hlog : x.log = []) : PassesQuietly x a rest := by
  obtain ⟨hleft, hout⟩ := h
  refine ⟨hleft, hout, ?_⟩
  rw [hlog]
  exact List.forall_mem_nil _

end Logs

namespace Parse

variable {table table' : ShapeTable} {ts rest : List Token}

/-! ## Leaving out -/

theorem exists_statementTail {ts : List Token} (h : symbol (afterStatement ts) ≠ .eof) :
    ∃ taken, ts = taken ++ afterStatement ts ∧
      StatementTail taken (symbol (afterStatement ts)) := by
  fun_induction afterStatement ts with
  | case1 => exact absurd rfl h
  | case2 t ts ht => exact absurd ht h
  | case3 t ts ht =>
    refine ⟨[], rfl, ?_⟩
    rw [symbol_cons, ht]
    exact .brace (List.forall_mem_nil _)
  | case4 t ts ht =>
    obtain ⟨s, p⟩ := t
    subst ht
    exact ⟨[_], rfl, @StatementTail.semicolon [] p _ (List.forall_mem_nil _)⟩
  | case5 t ts _ hbrace hsemicolon ih =>
    obtain ⟨taken, htaken, htail⟩ := ih h
    exact ⟨t :: taken, congrArg (t :: ·) htaken, htail.cons hsemicolon hbrace⟩

theorem exists_semicolon {ts : List Token} (h : symbol (afterSemicolon ts) ≠ .eof) :
    ∃ taken p, ts = taken ++ ⟨.punct .semicolon, p⟩ :: afterSemicolon ts ∧
      ∀ t ∈ taken, t.symbol ≠ .punct .semicolon := by
  fun_induction afterSemicolon ts with
  | case1 => exact absurd rfl h
  | case2 t ts ht => exact absurd ht h
  | case3 t ts ht =>
    obtain ⟨s, p⟩ := t
    subst ht
    exact ⟨[], p, rfl, List.forall_mem_nil _⟩
  | case4 t ts _ hsemicolon ih =>
    obtain ⟨taken, p, htaken, hfree⟩ := ih h
    exact ⟨t :: taken, p, congrArg (t :: ·) htaken, List.forall_mem_cons.2 ⟨hsemicolon, hfree⟩⟩

theorem exists_endOfHeader {depth : Nat} {ts : List Token}
    (h : symbol (endOfHeader depth ts) ≠ .eof) :
    ∃ taken, ts = taken ++ endOfHeader depth ts ∧
      openAfter .openParen .closeParen depth taken = some 0 := by
  fun_induction endOfHeader depth ts with
  | case1 => exact absurd rfl h
  | case2 depth t ts ht => exact absurd ht h
  | case3 t ts ht => exact ⟨[], rfl, rfl⟩
  | case4 t ts depth ht ih =>
    obtain ⟨taken, htaken, hopen⟩ := ih h
    exact ⟨t :: taken, congrArg (t :: ·) htaken, (openAfter_open ht).trans hopen⟩
  | case5 t ts depth ht ih =>
    obtain ⟨taken, htaken, hopen⟩ := ih h
    exact ⟨t :: taken, congrArg (t :: ·) htaken, (openAfter_close (by decide) ht).trans hopen⟩
  | case6 t ts depth _ hlast hopening hclosing ih =>
    obtain ⟨taken, htaken, hopen⟩ := ih h
    refine ⟨t :: taken, congrArg (t :: ·) htaken, (openAfter_other hopening ?_).trans hopen⟩
    intro ht
    cases depth with
    | zero => exact hlast ht rfl
    | succ depth => exact hclosing depth ht rfl

/-! ## Loop headers -/

theorem log_forStart (h : OpensForStart ts) : (forStart table ts).log = [] := by
  rcases h with ⟨p, us, rfl⟩ | ⟨n, p, q, us, rfl⟩ | ⟨type, p, us, htype, rfl⟩
  · rw [forStart, accept_punct]
    rfl
  · obtain ⟨h, hname⟩ := assignedName?_assignment n p q us
    rw [forStart, accept_eq_none (by simp), hname]
    exact Logged.log_bind_eq_nil rfl fun _ => Logged.log_bind_eq_nil rfl fun _ => rfl
  · have hname : assignedName? (⟨.keyword (.type type), p⟩ :: us) = none := by
      rcases assignedName?_cases (⟨.keyword (.type type), p⟩ :: us) with
        ⟨_, _, _, _, _, heq, -⟩ | ⟨hname, -⟩
      · cases heq
      · exact hname
    rw [forStart, accept_eq_none (by simp), hname, variableType?_type htype]
    exact Logged.log_bind_eq_nil rfl fun _ => rfl

theorem outcome_forStart_of_not_opens (h : ¬ OpensForStart ts) :
    (forStart table ts).outcome =
      .ok ⟨(none, table), afterSemicolon ts, left_afterSemicolon ts⟩ := by
  rcases accept_cases (s := .punct .semicolon) (by simp) ts with ⟨p, us, -, rfl, -⟩ | ⟨-, hacc⟩
  · exact absurd (.inl ⟨p, us, rfl⟩) h
  rcases assignedName?_cases ts with ⟨n, p, q, us, -, rfl, -⟩ | ⟨hname, -⟩
  · exact absurd (.inr (.inl ⟨n, p, q, us, rfl⟩)) h
  rcases variableType?_cases ts with ⟨type, p, us, htype, rfl⟩ | htype
  · exact absurd (.inr (.inr ⟨type, p, us, htype, rfl⟩)) h
  rw [forStart, hacc, hname, htype]
  rfl

theorem forStart_read {start : Option ForStart}
    (h : Passes (forStart table ts).outcome (start, table') rest) (heof : symbol rest ≠ .eof) :
    ∃ taken o, ts = taken ++ rest ∧ ForStartRead taken o start ∧
      table.Follows ((start.map ForStart.mentions).getD []) table' := by
  by_cases hopens : OpensForStart ts
  · obtain ⟨taken, hts, hform, hfollows⟩ :=
      passesQuietly_forStart.1 (h.quietly (log_forStart hopens))
    exact ⟨taken, [], hts, .form hform, hfollows⟩
  · obtain ⟨_, hout⟩ := h
    rw [outcome_forStart_of_not_opens hopens] at hout
    cases hout
    obtain ⟨taken, p, hts, hfree⟩ := exists_semicolon heof
    refine ⟨taken ++ [⟨.punct .semicolon, p⟩], _, ?_, .leftOut hfree ?_, rfl⟩
    · rwa [List.append_assoc, List.singleton_append]
    · intro hopens'
      have happend := hopens'.append (afterSemicolon ts)
      rw [List.append_assoc, List.singleton_append, ← hts] at happend
      exact hopens happend

theorem log_forIncrement (h : OpensForIncrement ts) : (forIncrement table ts).log = [] := by
  by_cases hclose : symbol ts = .punct .closeParen
  · rw [forIncrement, if_pos hclose]
    rfl
  rcases h with ⟨p, us, rfl⟩ | ⟨s, p, s', q, n, op, us, rfl, hstep⟩ | ⟨n, p, q, us, rfl⟩
  · exact absurd rfl hclose
  · obtain ⟨h, hstep?⟩ := step?_step hstep p q us
    rw [forIncrement, if_neg hclose, hstep?]
    rfl
  · obtain ⟨h, hname⟩ := assignedName?_assignment n p q us
    rw [forIncrement, if_neg hclose, step?_assignment, hname]
    exact Logged.log_bind_eq_nil rfl fun _ => rfl

theorem outcome_forIncrement_of_not_opens (h : ¬ OpensForIncrement ts) :
    (forIncrement table ts).outcome = .ok ⟨none, endOfHeader 0 ts, left_endOfHeader 0 ts⟩ := by
  by_cases hclose : symbol ts = .punct .closeParen
  · exact absurd (.inl (exists_of_symbol_eq (by simp) hclose)) h
  rcases step?_cases ts with ⟨s, p, s', q, n, op, us, -, rfl, hstep, -⟩ | ⟨hstep?, -⟩
  · exact absurd (.inr (.inl ⟨s, p, s', q, n, op, us, rfl, hstep⟩)) h
  rcases assignedName?_cases ts with ⟨n, p, q, us, -, rfl, -⟩ | ⟨hname, -⟩
  · exact absurd (.inr (.inr ⟨n, p, q, us, rfl⟩)) h
  rw [forIncrement, if_neg hclose, hstep?]
  dsimp only
  rw [hname]
  rfl

theorem forIncrement_read {increment : Option Assignment} {p : Position}
    (h : Passes (forIncrement table ts).outcome increment (⟨.punct .closeParen, p⟩ :: rest)) :
    ∃ taken o, ts = taken ++ ⟨.punct .closeParen, p⟩ :: rest ∧
      ForIncrementRead taken o increment ∧
      table.Follows ((increment.map Assignment.mentions).getD []) table := by
  by_cases hopens : OpensForIncrement ts
  · obtain ⟨taken, hts, hform, hfollows⟩ :=
      passesQuietly_forIncrement.1 (h.quietly (log_forIncrement hopens))
    exact ⟨taken, [], hts, .form hform, hfollows⟩
  · obtain ⟨_, hout⟩ := h
    rw [outcome_forIncrement_of_not_opens hopens] at hout
    injection hout with hout
    injection hout with hnone hrest
    subst hnone
    obtain ⟨taken, hts, hbalanced⟩ := @exists_endOfHeader 0 ts (by simp [hrest])
    rw [hrest] at hts
    refine ⟨taken, _, hts, @ForIncrementRead.leftOut taken p hbalanced ?_, rfl⟩
    intro hopens'
    have happend := hopens'.append rest
    rw [List.append_assoc, List.singleton_append, ← hts] at happend
    exact hopens happend

theorem forHeader_read {header : ForHeader}
    (h : Reads (forHeader table ts).outcome (header, table') rest) :
    ∃ i c n o o', ForStartRead i o header.start ∧ ForConditionForm c header.condition ∧
      ForIncrementRead n o' header.increment ∧ table.Follows header.mentions table' ∧
      ∃ p q r, ts = parenthesized p (i ++ (c ++ n)) q ++ ⟨.punct .openBrace, r⟩ :: rest := by
  rw [forHeader] at h
  simp only [reads_outcome_bind, Logged.outcome_lift, Read.exists, Pass.exists, Prod.exists,
    reads_outcome_pure, exists_and_right, exists_reads, exists_passes, reads_expect] at h
  obtain ⟨u, mid, ⟨p, rfl⟩, start, next, mid₁, hstart, e, mid₂, hcondition, increment, mid₃,
    hincrement, u', mid₄, ⟨q, rfl⟩, u'', mid₅, ⟨r, rfl⟩, heq, rfl⟩ := h
  cases heq
  obtain ⟨c, rfl, hc, hin⟩ := reads_forCondition.1 hcondition
  have heof : symbol (c ++ mid₂) ≠ .eof := by
    cases hc with
    | always => simp
    | expr hat =>
      obtain ⟨t, us, rfl, ht⟩ := hat.opens
      intro hs
      rw [List.cons_append, List.cons_append, symbol_cons] at hs
      rw [hs] at ht
      cases ht
  obtain ⟨i, o, rfl, hi, hfollows⟩ := forStart_read hstart heof
  obtain ⟨n, o', rfl, hn, hfollows'⟩ := forIncrement_read hincrement
  refine ⟨i, c, n, o, o', hi, hc, hn, ?_, p, q, r, ?_⟩
  · refine ShapeTable.follows_append.2 ⟨table', hfollows, ?_⟩
    exact ShapeTable.follows_append.2
      ⟨table', ShapeTable.follows_mentions.2 ⟨hin, rfl⟩, hfollows'⟩
  · rw [parenthesized_append, List.append_assoc, List.append_assoc]

/-! ## Simple statements -/

theorem passes_leaveOut {n : Notice} {s : Option Stmt} :
    Passes (leaveOut table n ts).outcome (s, table') rest ↔
      s = none ∧ table' = table ∧ rest = afterStatement ts := by
  rw [leaveOut]
  simp only [passes_outcome_bind, passes_outcome_pure, Prod.mk.injEq, and_assoc]
  constructor
  · rintro ⟨u, -, hs⟩
    exact hs
  · intro hs
    exact ⟨(), rfl, hs⟩

/-- A name at the front of a statement is assigned to, or the statement is left out. -/
theorem assignment_read {n : String} {p : Position} {s : Option Stmt}
    (h : Passes (assignment table n p ts).outcome (s, table') rest) (heof : symbol rest ≠ .eof) :
    (∃ a us q, s = some (.assign a) ∧ ts = us ++ ⟨.punct .semicolon, q⟩ :: rest ∧
      AssignmentForm (⟨.name n, p⟩ :: us) a ∧ table.Follows a.mentions table') ∨
    ∃ us, s = none ∧ ts = us ++ rest ∧ LeftOut (⟨.name n, p⟩ :: us) (symbol rest) ∧
      table' = table := by
  rw [assignment] at h
  simp only [passes_outcome_bind, Logged.outcome_lift, Pass.exists] at h
  obtain ⟨place, mid, h, hplace, hrest⟩ := h
  rcases accept_cases (s := .operator "=") (by simp) mid with ⟨q, us, h', rfl, hacc⟩ | ⟨hne, hacc⟩
  · rw [hacc] at hrest
    simp only [passes_outcome_bind, Logged.outcome_lift, Read.exists, passes_outcome_pure,
      exists_and_right, exists_reads, reads_expect, Prod.mk.injEq] at hrest
    obtain ⟨e, mid, hread, u, mid', ⟨r, rfl⟩, ⟨rfl, rfl⟩, rfl⟩ := hrest
    exact .inl (passesQuietly_assignment.1
      (passesQuietly_assignment_iff.2 ⟨place, q, us, e, r, ⟨h, hplace⟩, hread, rfl, rfl⟩))
  · rw [hacc] at hrest
    simp only [passes_outcome_bind, Pass.exists, passes_outcome_pure, exists_and_right,
      exists_passes] at hrest
    obtain ⟨answer, mid', hleave, rfl, rfl⟩ := hrest
    obtain ⟨rfl, rfl, rfl⟩ := passes_leaveOut.1 hleave
    obtain ⟨taken, hmid, htail⟩ := exists_statementTail heof
    have hassign : symbol taken ≠ .operator "=" := by
      intro hs
      obtain ⟨q, us, rfl⟩ := exists_of_symbol_eq (by simp) hs
      rw [hmid] at hne
      exact hne rfl
    refine .inr ?_
    rcases accept_cases (s := .punct .openBracket) (by simp) ts with
      ⟨o, vs, -, rfl, -⟩ | ⟨hbracket, -⟩
    · obtain ⟨i, text, rfl, hindex⟩ := passes_target_element.1 ⟨h, hplace⟩
      obtain ⟨ks, r, rfl, hi, -, -⟩ := reads_index_iff.1 hindex
      refine ⟨⟨.punct .openBracket, o⟩ :: (ks ++ ⟨.punct .closeBracket, r⟩ :: taken), rfl, ?_,
        .element hi hassign htail, rfl⟩
      rw [List.cons_append, List.append_assoc, List.cons_append, ← hmid]
    · obtain ⟨rfl, rfl⟩ := (passes_target_name hbracket).1 ⟨h, hplace⟩
      refine ⟨taken, rfl, hmid, .name ?_ hassign htail, rfl⟩
      intro hs
      obtain ⟨q, us, rfl⟩ := exists_of_symbol_eq (by simp) hs
      rw [hmid] at hbracket
      exact hbracket rfl

/-! ## Compound statements -/

/-- What is read from these tokens as the rest of a body, and what it says about names and jumps. -/
def BlockReadable (ts : List Token) : Prop :=
  ∀ ⦃place : Place⦄ ⦃inLoop : Bool⦄ ⦃depth : Nat⦄ ⦃table table' : ShapeTable⦄ ⦃rest : List Token⦄
    ⦃ss : Block⦄, Reads (block place inLoop depth table ts).outcome (ss, table') rest →
    ∃ taken o, ts = taken ++ rest ∧ BlockRead depth taken o ss ∧
      table.Follows (Block.mentions ss) table' ∧ JumpsFit inLoop (Block.hasStrayJump ss)

/-- The same where a statement is looked for, whose first token `t` has been taken. -/
def StatementReadableAt (t : Token) (ts : List Token) : Prop :=
  ∀ ⦃inLoop : Bool⦄ ⦃table table' : ShapeTable⦄ ⦃rest : List Token⦄ ⦃s : Option Stmt⦄,
    Passes (statement inLoop table t ts).outcome (s, table') rest → symbol rest ≠ .eof →
    ∃ taken, ts = taken ++ rest ∧
      ((∃ stmt o, s = some stmt ∧ StmtRead (t :: taken) o stmt ∧
        table.Follows stmt.mentions table' ∧ JumpsFit inLoop stmt.hasStrayJump) ∨
      s = none ∧ LeftOut (t :: taken) (symbol rest) ∧ table' = table)

/-- The same behind every token but a brace and the end. -/
def StatementReadable (ts : List Token) : Prop :=
  ∀ ⦃t : Token⦄, t.symbol ≠ .eof → t.symbol ≠ .punct .openBrace →
    t.symbol ≠ .punct .closeBrace → StatementReadableAt t ts

/-- The same for an alternative. -/
def AlternativeReadable (ts : List Token) : Prop :=
  ∀ ⦃inLoop : Bool⦄ ⦃table table' : ShapeTable⦄ ⦃rest : List Token⦄ ⦃otherwise : Alternative⦄,
    Passes (alternative inLoop table ts).outcome (otherwise, table') rest →
    ∃ taken o, ts = taken ++ rest ∧ AlternativeRead taken o otherwise ∧
      table.Follows otherwise.mentions table' ∧ JumpsFit inLoop otherwise.hasStrayJump

section Steps

variable {place : Place} {inLoop : Bool} {depth : Nat} {ss : Block} {s : Option Stmt}

theorem not_reads_block_eof (heof : symbol ts = .eof) :
    ¬ Reads (block place inLoop depth table ts).outcome (ss, table') rest := by
  rw [block, next?_eq_none heof]
  rintro ⟨h, hout⟩
  cases hout

theorem block_stmt_inv {t : Token} (heof : t.symbol ≠ .eof)
    (hopen : t.symbol ≠ .punct .openBrace) (hclose : t.symbol ≠ .punct .closeBrace)
    (h : Reads (block place inLoop depth table (t :: ts)).outcome (ss, table') rest) :
    ∃ s next mid ss', Passes (statement inLoop table t ts).outcome (s, next) mid ∧
      Reads (block place inLoop depth next mid).outcome (ss', table') rest ∧
      ss = s.toList ++ ss' := by
  rw [block, next?_cons heof] at h
  dsimp only at h
  split at h
  · next hs => exact absurd hs hclose
  · next hs => exact absurd hs hclose
  · next hs => exact absurd hs hopen
  · simp only [reads_outcome_bind, Read.exists, Pass.exists, Prod.exists, reads_outcome_pure,
      exists_and_right, exists_reads, exists_passes, Prod.mk.injEq] at h
    obtain ⟨s, next, mid, hstmt, ss', last, mid', hblock, ⟨rfl, rfl⟩, rfl⟩ := h
    exact ⟨s, next, mid, ss', hstmt, hblock, rfl⟩

/-- Where a brace comes next, only the count of open braces changes. -/
theorem block_brace_inv {mark : Punct} {p : Position} {depth' : Nat}
    (hmark : mark = .closeBrace ∧ depth = depth' + 1 ∨ mark = .openBrace ∧ depth' = depth + 1)
    (h : Reads (block place inLoop depth table (⟨.punct mark, p⟩ :: ts)).outcome (ss, table')
      rest) :
    Reads (block place inLoop depth' table ts).outcome (ss, table') rest := by
  rcases hmark with ⟨rfl, rfl⟩ | ⟨rfl, rfl⟩
  all_goals
    rw [block, next?_cons (t := ⟨.punct _, p⟩) (by simp)] at h
    simp only [reads_outcome_bind, Read.exists, reads_outcome_pure, exists_and_right,
      exists_reads] at h
    obtain ⟨answer, mid, hread, rfl, rfl⟩ := h
    exact hread

theorem statement_foreign {t : Token} (ht : t.symbol.startsNoStatement = true) :
    statement inLoop table t ts = leaveOut table (.unknownStatement t.line t.symbol) ts := by
  obtain ⟨symbol, p⟩ := t
  match symbol with
  | .keyword (.type .void) | .keyword .elseKw | .number _ | .character _ | .string _ | .operator _
  | .punct .openParen | .punct .closeParen | .punct .openBracket | .punct .closeBracket
  | .punct .comma => rw [statement]

theorem statement_if_inv {p : Position}
    (h : Passes (statement inLoop table ⟨.keyword .ifKw, p⟩ ts).outcome (s, table') rest) :
    ∃ e mid body next mid' otherwise, s = some (.branch e body otherwise p) ∧
      Reads (condition .afterIf .afterIfCondition table ts) e mid ∧
      Reads (block .afterIfBlock inLoop 0 table mid).outcome (body, next) mid' ∧
      Passes (alternative inLoop next mid').outcome (otherwise, table') rest := by
  rw [statement] at h
  simp only [passes_outcome_bind, Logged.outcome_lift, Read.exists, Pass.exists, Prod.exists,
    passes_outcome_pure, exists_and_right, exists_reads, exists_passes,
    Prod.mk.injEq] at h
  obtain ⟨e, mid, he, body, next, mid', hbody, otherwise, last, mid'', halt, ⟨rfl, rfl⟩, rfl⟩ := h
  exact ⟨e, mid, body, next, mid', otherwise, rfl, he, hbody, halt⟩

theorem statement_while_inv {p : Position}
    (h : Passes (statement inLoop table ⟨.keyword .whileKw, p⟩ ts).outcome (s, table') rest) :
    ∃ e mid body, s = some (.whileLoop e body p) ∧
      Reads (condition .afterWhile .afterWhileCondition table ts) e mid ∧
      Reads (block .afterWhileBlock true 0 table mid).outcome (body, table') rest := by
  rw [statement] at h
  simp only [passes_outcome_bind, Logged.outcome_lift, Read.exists, Prod.exists,
    passes_outcome_pure, exists_and_right, exists_reads, Prod.mk.injEq] at h
  obtain ⟨e, mid, he, body, next, mid', hbody, ⟨rfl, rfl⟩, rfl⟩ := h
  exact ⟨e, mid, body, rfl, he, hbody⟩

theorem statement_for_inv {p : Position}
    (h : Passes (statement inLoop table ⟨.keyword .forKw, p⟩ ts).outcome (s, table') rest) :
    ∃ header next mid body,
      s = some (.forLoop header.start header.condition body header.increment p) ∧
      Reads (forHeader table ts).outcome (header, next) mid ∧
      Reads (block .afterForBody true 0 next mid).outcome (body, table') rest := by
  rw [statement] at h
  simp only [passes_outcome_bind, Read.exists, Prod.exists, passes_outcome_pure, exists_and_right,
    exists_reads, Prod.mk.injEq] at h
  obtain ⟨header, next, mid, hheader, body, last, mid', hbody, ⟨rfl, rfl⟩, rfl⟩ := h
  exact ⟨header, next, mid, body, rfl, hheader, hbody⟩

theorem alternative_body_inv {p : Position} (hts : symbol ts ≠ .keyword .ifKw)
    {otherwise : Alternative}
    (h : Passes (alternative inLoop table (⟨.keyword .elseKw, p⟩ :: ts)).outcome (otherwise, table')
      rest) :
    ∃ q us body, ts = ⟨.punct .openBrace, q⟩ :: us ∧ otherwise = .body body ∧
      Reads (block .afterElseBlock inLoop 0 table us).outcome (body, table') rest := by
  rw [alternative, accept_keyword] at h
  dsimp only at h
  rw [accept_eq_none hts] at h
  simp only [passes_outcome_bind, Logged.outcome_lift, Read.exists, Prod.exists,
    passes_outcome_pure, exists_and_right, exists_reads, reads_expect, Prod.mk.injEq] at h
  obtain ⟨u, us, ⟨q, rfl⟩, body, next, mid', hbody, ⟨rfl, rfl⟩, rfl⟩ := h
  exact ⟨q, us, body, rfl, rfl, hbody⟩

theorem alternative_branch_inv {p q : Position} {otherwise : Alternative}
    (h : Passes
      (alternative inLoop table (⟨.keyword .elseKw, p⟩ :: ⟨.keyword .ifKw, q⟩ :: ts)).outcome
      (otherwise, table') rest) :
    ∃ e mid body next mid' others, otherwise = .branch e body others p ∧
      Reads (condition .afterElseIf .afterElseIfCondition table ts) e mid ∧
      Reads (block .afterElseIfBlock inLoop 0 table mid).outcome (body, next) mid' ∧
      Passes (alternative inLoop next mid').outcome (others, table') rest := by
  rw [alternative, accept_keyword] at h
  dsimp only at h
  rw [accept_keyword] at h
  simp only [passes_outcome_bind, Logged.outcome_lift, Read.exists, Pass.exists, Prod.exists,
    passes_outcome_pure, exists_and_right, exists_reads, exists_passes,
    Prod.mk.injEq] at h
  obtain ⟨e, mid, he, body, next, mid', hbody, others, last, mid'', halt, ⟨rfl, rfl⟩, rfl⟩ := h
  exact ⟨e, mid, body, next, mid', others, rfl, he, hbody, halt⟩

theorem readableAt_foreign {found : Symbol} (hforeign : found.startsNoStatement = true)
    (p : Position) : StatementReadableAt ⟨found, p⟩ ts := by
  intro inLoop table table' rest s h hrest
  rw [statement_foreign hforeign] at h
  obtain ⟨rfl, rfl, rfl⟩ := passes_leaveOut.1 h
  obtain ⟨taken, hts, htail⟩ := exists_statementTail hrest
  exact ⟨taken, hts, .inr ⟨rfl, .foreign hforeign htail, rfl⟩⟩

theorem readableAt_semicolon (p : Position) :
    StatementReadableAt ⟨.punct .semicolon, p⟩ ts := by
  intro inLoop table table' rest s h _
  rw [statement] at h
  simp only [passes_outcome_bind] at h
  obtain ⟨u, -, hstay⟩ := h
  obtain ⟨heq, rfl⟩ := passes_outcome_pure.1 hstay
  cases heq
  exact ⟨[], rfl, .inr ⟨rfl, .semicolon, rfl⟩⟩

theorem readableAt_name (n : String) (p : Position) : StatementReadableAt ⟨.name n, p⟩ ts := by
  intro inLoop table table' rest s h hrest
  rw [statement] at h
  rcases assignment_read h hrest with ⟨a, us, q, rfl, rfl, hform, hfollows⟩ |
    ⟨us, rfl, rfl, hleft, rfl⟩
  · have hstmt : StmtRead (⟨.name n, p⟩ :: (us ++ [⟨.punct .semicolon, q⟩])) [] (.assign a) :=
      @StmtRead.assign (⟨.name n, p⟩ :: us) a q hform
    refine ⟨us ++ [⟨.punct .semicolon, q⟩], ?_, .inl ⟨_, [], rfl, hstmt, hfollows, fun _ => rfl⟩⟩
    rw [List.append_assoc, List.singleton_append]
  · exact ⟨us, rfl, .inr ⟨rfl, hleft, rfl⟩⟩

/-! Declarations, jumps and returns are read whole. Nothing is told about them, so that the lemmas
on quiet readings apply. -/

theorem readableAt_type {type : ScalarType} (htype : type ≠ .void) (p : Position) :
    StatementReadableAt ⟨.keyword (.type type), p⟩ ts := by
  intro inLoop table table' rest s h _
  have hlog : (statement inLoop table ⟨.keyword (.type type), p⟩ ts).log = [] := by
    cases type with
    | void => exact absurd rfl htype
    | int | float | char | double =>
      rw [statement]
      exact Logged.log_bind_eq_nil rfl fun _ => rfl
  obtain ⟨d, rfl, hread⟩ := (passesQuietly_statement_declare htype).1 (h.quietly hlog)
  obtain ⟨taken, rfl, hform, hfollows⟩ := (reads_declaration htype).1 hread
  exact ⟨taken, rfl, .inl ⟨_, [], rfl, .declare hform, hfollows, fun _ => rfl⟩⟩

theorem readableAt_jump (j : Jump) (p : Position) :
    StatementReadableAt ⟨.keyword (.jump j), p⟩ ts := by
  intro inLoop table table' rest s h _
  have hlog : (statement inLoop table ⟨.keyword (.jump j), p⟩ ts).log = [] := by
    rw [statement]
    exact Logged.log_bind_eq_nil rfl fun _ => rfl
  obtain ⟨stmt, rfl, rfl, hread⟩ := passesQuietly_statement_jump.1 (h.quietly hlog)
  obtain ⟨rfl, rfl, q, rfl⟩ := reads_jump.1 hread
  exact ⟨[_], rfl, .inl ⟨_, [], rfl, .jump, rfl, jumpsFit_inLoop _⟩⟩

theorem readableAt_return (p : Position) : StatementReadableAt ⟨.keyword .returnKw, p⟩ ts := by
  intro inLoop table table' rest s h _
  have hlog : (statement inLoop table ⟨.keyword .returnKw, p⟩ ts).log = [] := by
    rw [statement]
    exact Logged.log_bind_eq_nil rfl fun _ => rfl
  obtain ⟨stmt, rfl, rfl, hread⟩ := passesQuietly_statement_ret.1 (h.quietly hlog)
  obtain ⟨us, value, q, rfl, rfl, hform, hfollows⟩ := reads_returned.1 hread
  refine ⟨us ++ [⟨.punct .semicolon, q⟩], ?_,
    .inl ⟨_, [], rfl, .ret hform, hfollows, fun _ => rfl⟩⟩
  rw [List.append_assoc, List.singleton_append]

end Steps

section Readable

variable {ts : List Token} (hblock : ∀ us : List Token, us.length < ts.length → BlockReadable us)
include hblock

theorem blockReadable_of_shorter
    (hstatement : ∀ us : List Token, us.length < ts.length → StatementReadable us) :
    BlockReadable ts := by
  intro place inLoop depth table table' rest ss h
  rcases next?_cases ts with ⟨s, p, us, _, rfl, hnext⟩ | ⟨heof, -⟩
  · have hus : us.length < (⟨s, p⟩ :: us : List Token).length := Nat.lt_succ_self _
    by_cases hclose : s = .punct .closeBrace
    · subst hclose
      cases depth with
      | zero =>
        rw [block, next?_cons (t := ⟨.punct .closeBrace, p⟩) (by simp)] at h
        obtain ⟨heq, rfl⟩ := reads_outcome_pure.1 h
        cases heq
        exact ⟨[_], [], rfl, .last, rfl, fun _ => rfl⟩
      | succ depth =>
        obtain ⟨taken, o, rfl, hread, hfollows, hjumps⟩ :=
          hblock us hus (block_brace_inv (.inl ⟨rfl, rfl⟩) h)
        exact ⟨_ :: taken, o, rfl, .close hread, hfollows, hjumps⟩
    by_cases hopen : s = .punct .openBrace
    · subst hopen
      obtain ⟨taken, o, rfl, hread, hfollows, hjumps⟩ :=
        hblock us hus (block_brace_inv (.inr ⟨rfl, rfl⟩) h)
      exact ⟨_ :: taken, o, rfl, .open hread, hfollows, hjumps⟩
    have heof : s ≠ .eof := by
      rintro rfl
      rw [next?_eq_none rfl] at hnext
      cases hnext
    obtain ⟨found, next, mid, ss', hstmt, hrest, rfl⟩ := block_stmt_inv heof hopen hclose h
    have hmid : symbol mid ≠ .eof := fun heof' => not_reads_block_eof heof' hrest
    obtain ⟨taken, rfl, hfound⟩ := hstatement us hus heof hopen hclose hstmt hmid
    have hlen : mid.length < (⟨s, p⟩ :: (taken ++ mid) : List Token).length := by
      simp only [List.length_append, List.length_cons]
      omega
    obtain ⟨taken', o', rfl, hread, hfollows', hjumps'⟩ := hblock mid hlen hrest
    rcases hfound with ⟨stmt, o, rfl, hform, hfollows, hjumps⟩ | ⟨rfl, hleft, rfl⟩
    · refine ⟨_ :: taken ++ taken', o ++ o', ?_, .stmt hform hread, ?_, ?_⟩
      · rw [List.cons_append, List.cons_append, List.append_assoc]
      · exact ShapeTable.follows_append.2 ⟨next, hfollows, hfollows'⟩
      · exact jumpsFit_or.2 ⟨hjumps, hjumps'⟩
    · obtain ⟨t, us, rfl⟩ := List.exists_cons_of_ne_nil hread.ne_nil
      refine ⟨(_ :: taken) ++ (t :: us), _, ?_, .leftOut hleft hread, hfollows', hjumps'⟩
      rw [List.append_assoc]
      rfl
  · exact absurd h (not_reads_block_eof heof)

theorem readableAt_while (p : Position) : StatementReadableAt ⟨.keyword .whileKw, p⟩ ts := by
  intro inLoop table table' rest s h _
  obtain ⟨e, mid, body, rfl, he, hbody⟩ := statement_while_inv h
  have hmid := he.length_lt
  obtain ⟨c, hc, hin, q, r, o, rfl⟩ := reads_condition.1 he
  obtain ⟨b, left, rfl, hb, hfollows, -⟩ := hblock mid hmid hbody
  refine ⟨parenthesized q c r ++ ⟨.punct .openBrace, o⟩ :: b, ?_,
    .inl ⟨_, left, rfl, .whileLoop hc hb, ?_, fun _ => rfl⟩⟩
  · simp only [List.append_assoc, List.cons_append]
  · exact ShapeTable.follows_append.2 ⟨table, ShapeTable.follows_mentions.2 ⟨hin, rfl⟩, hfollows⟩

theorem readableAt_for (p : Position) : StatementReadableAt ⟨.keyword .forKw, p⟩ ts := by
  intro inLoop table table' rest s h _
  obtain ⟨header, next, mid, body, rfl, hheader, hbody⟩ := statement_for_inv h
  have hmid := hheader.length_lt
  obtain ⟨i, c, n, left, left', hi, hc, hn, hfollows, q, r, o, rfl⟩ := forHeader_read hheader
  obtain ⟨b, left'', rfl, hb, hfollows', -⟩ := hblock mid hmid hbody
  refine ⟨parenthesized q (i ++ (c ++ n)) r ++ ⟨.punct .openBrace, o⟩ :: b, ?_,
    .inl ⟨_, left ++ (left' ++ left''), rfl, .forLoop hi hc hn hb, ?_, fun _ => rfl⟩⟩
  · simp only [List.append_assoc, List.cons_append]
  · have hall := ShapeTable.follows_append.2 ⟨next, hfollows, hfollows'⟩
    rw [ForHeader.mentions, List.append_assoc, List.append_assoc] at hall
    exact hall

theorem readableAt_if
    (halternative : ∀ us : List Token, us.length < ts.length → AlternativeReadable us)
    (p : Position) : StatementReadableAt ⟨.keyword .ifKw, p⟩ ts := by
  intro inLoop table table' rest s h _
  obtain ⟨e, mid, body, next, mid', otherwise, rfl, he, hbody, halt⟩ := statement_if_inv h
  have hmid := he.length_lt
  obtain ⟨c, hc, hin, q, r, o, rfl⟩ := reads_condition.1 he
  have hmid' := hbody.length_lt
  obtain ⟨b, left, rfl, hb, hfollows, hjumps⟩ := hblock mid hmid hbody
  obtain ⟨a, left', rfl, ha, hfollows', hjumps'⟩ := halternative mid' (by omega) halt
  refine ⟨parenthesized q c r ++ ⟨.punct .openBrace, o⟩ :: (b ++ a), ?_,
    .inl ⟨_, left ++ left', rfl, .branch hc hb ha, ?_, jumpsFit_or.2 ⟨hjumps, hjumps'⟩⟩⟩
  · simp only [List.append_assoc, List.cons_append]
  · exact ShapeTable.follows_append.2 ⟨table, ShapeTable.follows_mentions.2 ⟨hin, rfl⟩,
      ShapeTable.follows_append.2 ⟨next, hfollows, hfollows'⟩⟩

theorem statementReadable_of_shorter
    (halternative : ∀ us : List Token, us.length < ts.length → AlternativeReadable us) :
    StatementReadable ts := by
  intro t heof hopen hclose
  obtain ⟨found, p⟩ := t
  by_cases hforeign : found.startsNoStatement = true
  · exact readableAt_foreign hforeign p
  cases found with
  | number | character | string | operator => exact absurd rfl hforeign
  | eof => exact absurd rfl heof
  | name n => exact readableAt_name n p
  | punct mark =>
    cases mark with
    | openParen | closeParen | openBracket | closeBracket | comma => exact absurd rfl hforeign
    | openBrace => exact absurd rfl hopen
    | closeBrace => exact absurd rfl hclose
    | semicolon => exact readableAt_semicolon p
  | keyword word =>
    cases word with
    | elseKw => exact absurd rfl hforeign
    | type type =>
      have htype : type ≠ .void := by
        rintro rfl
        exact hforeign rfl
      exact readableAt_type htype p
    | jump j => exact readableAt_jump j p
    | returnKw => exact readableAt_return p
    | ifKw => exact readableAt_if hblock halternative p
    | whileKw => exact readableAt_while hblock p
    | forKw => exact readableAt_for hblock p

theorem alternativeReadable_of_shorter
    (halternative : ∀ us : List Token, us.length < ts.length → AlternativeReadable us) :
    AlternativeReadable ts := by
  intro inLoop table table' rest otherwise h
  rcases accept_cases (s := .keyword .elseKw) (by simp) ts with ⟨p, us, -, rfl, -⟩ | ⟨-, hacc⟩
  · rcases accept_cases (s := .keyword .ifKw) (by simp) us with ⟨q, vs, -, rfl, -⟩ | ⟨hif, -⟩
    · obtain ⟨e, mid, body, next, mid', others, rfl, he, hbody, halt⟩ := alternative_branch_inv h
      have hmid := he.length_lt
      obtain ⟨c, hc, hin, r, s, t, rfl⟩ := reads_condition.1 he
      have hmid' := hbody.length_lt
      have hlen : ∀ ws : List Token, ws.length + 2 =
          (⟨.keyword .elseKw, p⟩ :: ⟨.keyword .ifKw, q⟩ :: ws : List Token).length := fun _ => rfl
      rw [← hlen] at hblock halternative
      obtain ⟨b, left, rfl, hb, hfollows, hjumps⟩ := hblock mid (by omega) hbody
      obtain ⟨a, left', rfl, ha, hfollows', hjumps'⟩ := halternative mid' (by omega) halt
      refine ⟨⟨.keyword .elseKw, p⟩ :: ⟨.keyword .ifKw, q⟩ ::
        (parenthesized r c s ++ ⟨.punct .openBrace, t⟩ :: (b ++ a)), left ++ left', ?_,
        .branch hc hb ha, ?_, jumpsFit_or.2 ⟨hjumps, hjumps'⟩⟩
      · simp only [List.append_assoc, List.cons_append]
      · exact ShapeTable.follows_append.2 ⟨table, ShapeTable.follows_mentions.2 ⟨hin, rfl⟩,
          ShapeTable.follows_append.2 ⟨next, hfollows, hfollows'⟩⟩
    · obtain ⟨q, vs, body, rfl, rfl, hbody⟩ := alternative_body_inv hif h
      have hlen : vs.length <
          (⟨.keyword .elseKw, p⟩ :: ⟨.punct .openBrace, q⟩ :: vs : List Token).length := by
        simp only [List.length_cons]
        omega
      obtain ⟨b, left, rfl, hb, hfollows, hjumps⟩ := hblock vs hlen hbody
      exact ⟨_ :: _ :: b, left, rfl, .body hb, hfollows, hjumps⟩
  · rw [alternative, hacc] at h
    obtain ⟨heq, rfl⟩ := passes_outcome_pure.1 h
    cases heq
    exact ⟨[], [], rfl, .none, rfl, fun _ => rfl⟩

end Readable

/-- The three parsers call one another on fewer tokens, so the induction is on how many there
are. -/
theorem readable_of_length (n : Nat) : ∀ ts : List Token, ts.length = n →
    BlockReadable ts ∧ StatementReadable ts ∧ AlternativeReadable ts := by
  induction n using Nat.strongRecOn with
  | ind n ih =>
    rintro ts rfl
    have hblock : ∀ us : List Token, us.length < ts.length → BlockReadable us :=
      fun us hus => (ih us.length hus us rfl).1
    have hstatement : ∀ us : List Token, us.length < ts.length → StatementReadable us :=
      fun us hus => (ih us.length hus us rfl).2.1
    have halternative : ∀ us : List Token, us.length < ts.length → AlternativeReadable us :=
      fun us hus => (ih us.length hus us rfl).2.2
    exact ⟨blockReadable_of_shorter hblock hstatement,
      statementReadable_of_shorter hblock halternative,
      alternativeReadable_of_shorter hblock halternative⟩

/-- **What is read as a body.** The tokens up to the brace at which the reading of a body ends are
its statements and the stretches that are left out. -/
theorem block_read {place : Place} {inLoop : Bool} {depth : Nat} {ss : Block}
    (h : Reads (block place inLoop depth table ts).outcome (ss, table') rest) :
    ∃ taken o, ts = taken ++ rest ∧ BlockRead depth taken o ss ∧
      table.Follows (Block.mentions ss) table' ∧ JumpsFit inLoop (Block.hasStrayJump ss) :=
  (readable_of_length _ ts rfl).1 h

end Parse

/-! ## Functions -/

theorem Left.subset {rest ts : List Token} (h : Left rest ts) : rest ⊆ ts := by
  obtain ⟨taken, rfl, -⟩ := h
  exact List.subset_append_right taken rest

/-- A function passes the static checks, and its body is read from some of the tokens `ts`. -/
structure Function.ReadFrom (ts : List Token) (f : Function) : Prop where
  checked : f.Checked
  body : ∃ taken o, taken ⊆ ts ∧ BlockRead 0 taken o f.body

theorem Function.ReadFrom.of_subset {ts us : List Token} {f : Function} (h : f.ReadFrom us)
    (hus : us ⊆ ts) : f.ReadFrom ts := by
  obtain ⟨taken, o, htaken, hread⟩ := h.body
  exact ⟨h.checked, taken, o, fun t ht => hus (htaken ht), hread⟩

namespace Parse

variable {ts rest : List Token}

theorem function_readFrom {returns : ScalarType} {n : String} {q : Position} {f : Function}
    (h : Reads (function returns n q ts).outcome f rest) : f.ReadFrom ts := by
  rw [function] at h
  simp only [reads_outcome_bind, Logged.outcome_lift, Read.exists, Pass.exists, Prod.exists,
    reads_outcome_pure, exists_and_right, exists_reads, exists_passes, reads_expect] at h
  obtain ⟨params, table, mid, hparams, u₁, mid₁, ⟨s, rfl⟩, u₂, mid₂, ⟨t, rfl⟩, ss, table', mid₃,
    hbody, rfl, rfl⟩ := h
  obtain ⟨a, rfl, ha, hfollows⟩ := passes_parameterList.1 hparams
  obtain ⟨taken, o, rfl, hread, hfollows', hjumps⟩ := block_read hbody
  refine ⟨⟨?_, hjumps rfl⟩, taken, o, ?_, hread⟩
  · exact ShapeTable.exists_follows_iff.1
      ⟨table', ShapeTable.follows_append.2 ⟨table, hfollows, hfollows'⟩⟩
  · intro t ht
    simp [ht]

/-- Each function of a program is read from tokens of the program, whatever is left out between and
inside of them. -/
theorem functions_readFrom {fs : List Function} (h : (functions ts).outcome = .ok fs) :
    ∀ f ∈ fs, f.ReadFrom ts := by
  fun_induction functions ts generalizing fs with
  | case1 ts hnext =>
    cases h
    exact List.forall_mem_nil _
  | case2 ts _ _ left _ returns _ name position _ left' _ _ inner left'' _ ih =>
    simp only [Logged.outcome_bind_eq_ok, Read.exists] at h
    obtain ⟨f, rest, hleft, hf, u, -, others, hothers, heq⟩ := h
    cases heq
    have hinner : Left inner ts := ((left.andThen left').andThen left'').left
    refine List.forall_mem_cons.2 ⟨(function_readFrom ⟨hleft, hf⟩).of_subset hinner.subset, ?_⟩
    intro g hg
    exact (ih rest hleft hothers g hg).of_subset (hinner.andPass hleft.left).subset
  | case3 ts _ rest left _ _ _ _ _ _ _ _ _ ih =>
    -- a notice is given, and the reading goes on
    obtain ⟨u, -, hrest⟩ := Logged.outcome_bind_eq_ok.1 h
    intro f hf
    exact (ih hrest f hf).of_subset (left.left.andPass (left_afterSemicolon rest)).subset
  | case4 _ _ _ left _ _ _ _ ih | case5 _ _ _ left _ _ ih =>
    obtain ⟨u, -, hrest⟩ := Logged.outcome_bind_eq_ok.1 h
    intro f hf
    exact (ih hrest f hf).of_subset left.left.subset

end Parse

/-- The functions of a source are read from its tokens. -/
theorem Program.readFrom_of_ofSource {source : String} {program : Program}
    (h : (Program.ofSource source).outcome = .ok program) :
    ∃ ts, scan source = .ok ts ∧ ∀ f ∈ program.functions, f.ReadFrom (Parse.withEnd ts) := by
  rw [Program.ofSource] at h
  cases hscan : scan source with
  | error e =>
    rw [hscan] at h
    cases h
  | ok ts =>
    rw [hscan] at h
    obtain ⟨fs, hfs, heq⟩ := Logged.outcome_bind_eq_ok.1 h
    cases heq
    exact ⟨ts, rfl, Parse.functions_readFrom hfs⟩

theorem Program.checked_of_ofSource {source : String} {program : Program}
    (h : (Program.ofSource source).outcome = .ok program) : ∀ f ∈ program.functions, f.Checked := by
  obtain ⟨ts, -, hread⟩ := readFrom_of_ofSource h
  exact fun f hf => (hread f hf).checked

end ClockedC
