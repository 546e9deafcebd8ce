import ClockedC.Proofs.Recovery

/-!
# Braces around a body

The parser counts braces between statements, but not in what it leaves out. What it keeps of a body
is therefore always balanced, and the brace at which it takes the body to end is the one that
matches the opening brace as far as the stretches left out are balanced themselves.

* `Inserted` says how tokens are made up of kept ones and of stretches that are left out.
* `BlockRead.kept`: what is kept of a body is balanced.
* `Parse.block_balanced_of_omitted`: where the body ends at the matching brace.
* `function_cut_short`: a brace in a statement that is left out moves the end of a function.
-/

namespace ClockedC

/-- Each brace that is opened in a stretch is closed in it, and no other. -/
abbrev BraceBalanced (ts : List Token) : Prop :=
  Balanced .openBrace .closeBrace ts

/-! ## Syntax without braces -/

/-- No token is a brace. -/
def Braceless (ts : List Token) : Prop :=
  ∀ t ∈ ts, t.symbol ≠ .punct .openBrace ∧ t.symbol ≠ .punct .closeBrace

theorem Braceless.balanced {ts : List Token} (h : Braceless ts) : BraceBalanced ts :=
  balanced_of_forall h

@[simp] theorem braceless_nil : Braceless [] := List.forall_mem_nil _

@[simp] theorem braceless_cons {t : Token} {ts : List Token} :
    Braceless (t :: ts) ↔
      (t.symbol ≠ .punct .openBrace ∧ t.symbol ≠ .punct .closeBrace) ∧ Braceless ts :=
  List.forall_mem_cons

@[simp] theorem braceless_append {ts us : List Token} :
    Braceless (ts ++ us) ↔ Braceless ts ∧ Braceless us :=
  List.forall_mem_append

@[simp] theorem braceless_parenthesized {ts : List Token} {p q : Position} :
    Braceless (parenthesized p ts q) ↔ Braceless ts := by
  simp [parenthesized]

mutual

theorem ExprAt.braceless : ∀ {k : Nat} {ts : List Token} {e : Expr}, ExprAt k ts e → Braceless ts
  | _, _, _, .tighter _ h => h.braceless
  | _, _, _, .binary _ left right => by simp [left.braceless, right.braceless]
  | _, _, _, .unary operand => by simp [operand.braceless]
  | _, _, _, .parens inner => by simp [inner.braceless]
  | _, _, _, .number | _, _, _, .character | _, _, _, .name | _, _, _, .constant => by simp
  | _, _, _, .call args => by simp [args.braceless]
  | _, _, _, .element index => by simp [index.braceless]

theorem ArgumentsAt.braceless : ∀ {ts : List Token} {es : List Expr}, ArgumentsAt ts es →
    Braceless ts
  | _, _, .one h => h.braceless
  | _, _, .more first others => by simp [first.braceless, others.braceless]

end

theorem ElementsForm.braceless {ts : List Token} {es : List Element} (h : ElementsForm ts es) :
    Braceless ts := by
  have helement : ∀ {us e}, ElementForm us e → Braceless us := by
    rintro us e (_ | _ | _ | _) <;> simp
  induction h with
  | one h => exact helement h
  | more first _ ih => simp [helement first, ih]

theorem AssignmentForm.braceless {ts : List Token} {a : Assignment} (h : AssignmentForm ts a) :
    Braceless ts := by
  cases h with
  | name value => simp [value.braceless]
  | element index value => simp [index.braceless, value.braceless]

theorem ReturnedForm.braceless {ts : List Token} {value : Option Expr}
    (h : ReturnedForm ts value) : Braceless ts := by
  cases h with
  | nothing => exact braceless_nil
  | value h => exact h.braceless

theorem ForConditionForm.braceless {ts : List Token} {e : Expr} (h : ForConditionForm ts e) :
    Braceless ts := by
  cases h with
  | always => simp
  | expr h => simp [h.braceless]

theorem ForIncrementForm.braceless {ts : List Token} {increment : Option Assignment}
    (h : ForIncrementForm ts increment) : Braceless ts := by
  cases h with
  | nothing => exact braceless_nil
  | stepAfter | stepBefore => simp
  | assign value => simp [value.braceless]

theorem BraceBalanced.braced {ts : List Token} (h : BraceBalanced ts) (p q : Position) :
    BraceBalanced (braced p ts q) := by
  unfold BraceBalanced Balanced
  rw [ClockedC.braced, List.cons_append, openAfter_open rfl, openAfter_append, h.openAfter_eq]
  rfl

theorem ElementListForm.balanced {ts : List Token} {es : List Element}
    (h : ElementListForm ts es) : BraceBalanced ts := by
  cases h with
  | empty => exact braceless_nil.balanced.braced _ _
  | some h => exact h.braceless.balanced.braced _ _

theorem BraceBalanced.cons {t : Token} {ts : List Token} (ht : Braceless [t])
    (h : BraceBalanced ts) : BraceBalanced (t :: ts) :=
  ht.balanced.append h

theorem InitForm.balanced {ts : List Token} {form : Form} (h : InitForm ts form) :
    BraceBalanced ts := by
  cases h with
  | scalar => rfl
  | value h => exact Braceless.balanced (by simp [h.braceless])
  | array => exact Braceless.balanced (by simp)
  | elements _ h =>
    exact .cons (by simp) (.cons (by simp) (.cons (by simp) (.cons (by simp) h.balanced)))

/-- The braces of a declaration are those around an array initializer. -/
theorem DeclarationForm.balanced {ts : List Token} {d : Declaration} (h : DeclarationForm ts d) :
    BraceBalanced ts := by
  cases h with
  | @mk _ _ _ _ _ _ r _ h =>
    have hend : BraceBalanced [⟨.punct .semicolon, r⟩] := Braceless.balanced (by simp)
    exact .cons (by simp) (.cons (by simp) (h.balanced.append hend))

theorem ForStartForm.balanced {ts : List Token} {start : Option ForStart}
    (h : ForStartForm ts start) : BraceBalanced ts := by
  cases h with
  | nothing => exact Braceless.balanced (by simp)
  | declare h => exact h.balanced
  | assign value => exact Braceless.balanced (by simp [value.braceless])

/-! ## Kept tokens -/

/-- The tokens `ts` are the tokens `kept` with the stretches `omitted` put in between, in order. -/
inductive Inserted : (kept : List Token) → (omitted : List (List Token)) → List Token → Prop
  | nil : Inserted [] [] []
  | keep {t : Token} {kept ts : List Token} {omitted : List (List Token)}
      (h : Inserted kept omitted ts) : Inserted (t :: kept) omitted (t :: ts)
  | omit {us kept ts : List Token} {omitted : List (List Token)}
      (h : Inserted kept omitted ts) : Inserted kept (us :: omitted) (us ++ ts)

namespace Inserted

variable {kept kept' ts us : List Token} {o o' : List (List Token)}

theorem all : ∀ ts : List Token, Inserted ts [] ts
  | [] => .nil
  | _ :: ts => .keep (all ts)

theorem append (h : Inserted kept o ts) (h' : Inserted kept' o' us) :
    Inserted (kept ++ kept') (o ++ o') (ts ++ us) := by
  induction h with
  | nil => exact h'
  | keep _ ih => exact .keep ih
  | «omit» _ ih =>
    rw [List.append_assoc]
    exact .omit ih

/-- Balanced stretches do not change the count of open marks. -/
theorem openAfter_eq {opening closing : Punct} (h : Inserted kept o ts)
    (ho : ∀ us ∈ o, Balanced opening closing us) (depth : Nat) :
    openAfter opening closing depth ts = openAfter opening closing depth kept := by
  induction h generalizing depth with
  | nil => rfl
  | keep _ ih =>
    rw [openAfter, openAfter]
    simp only [ih ho]
  | «omit» _ ih =>
    obtain ⟨hus, hothers⟩ := List.forall_mem_cons.1 ho
    rw [openAfter_append, hus.openAfter_eq]
    exact ih hothers depth

theorem countP_eq (h : Inserted kept o ts) (p : Token → Bool) :
    ts.countP p = kept.countP p + o.flatten.countP p := by
  induction h with
  | nil => rfl
  | keep _ ih =>
    rw [List.countP_cons, List.countP_cons, ih]
    omega
  | «omit» _ ih =>
    rw [List.countP_append, List.flatten_cons, List.countP_append, ih]
    omega

end Inserted

/-- What is kept of some tokens is balanced. -/
def KeptBalanced (omitted : List (List Token)) (ts : List Token) : Prop :=
  ∃ kept, Inserted kept omitted ts ∧ BraceBalanced kept

/-- What is kept of some tokens closes `depth` braces, and then one more at its end. -/
def KeptClosing (depth : Nat) (omitted : List (List Token)) (ts : List Token) : Prop :=
  ∃ kept us p, ts = us ++ [⟨.punct .closeBrace, p⟩] ∧ Inserted kept omitted us ∧
    openAfter .openBrace .closeBrace depth kept = some 0

section Kept

variable {ts us : List Token} {o o' : List (List Token)} {depth : Nat}

theorem BraceBalanced.kept (h : BraceBalanced ts) : KeptBalanced [] ts :=
  ⟨ts, .all ts, h⟩

theorem Braceless.kept (h : Braceless ts) : KeptBalanced [] ts :=
  h.balanced.kept

theorem keptBalanced_omitted (ts : List Token) : KeptBalanced [ts] ts := by
  refine ⟨[], ?_, rfl⟩
  have h : Inserted [] [ts] (ts ++ []) := .omit .nil
  rwa [List.append_nil] at h

theorem KeptBalanced.append (h : KeptBalanced o ts) (h' : KeptBalanced o' us) :
    KeptBalanced (o ++ o') (ts ++ us) := by
  obtain ⟨kept, hkept, hbalanced⟩ := h
  obtain ⟨kept', hkept', hbalanced'⟩ := h'
  exact ⟨kept ++ kept', hkept.append hkept', hbalanced.append hbalanced'⟩

/-- A body in its braces is balanced. -/
theorem KeptClosing.braced (h : KeptClosing 0 o ts) (p : Position) :
    KeptBalanced o (⟨.punct .openBrace, p⟩ :: ts) := by
  obtain ⟨kept, us, q, rfl, hkept, hbalanced⟩ := h
  refine ⟨ClockedC.braced p kept q, ?_, BraceBalanced.braced hbalanced p q⟩
  have hclosed := (Inserted.keep hkept (t := ⟨.punct .openBrace, p⟩)).append
    (Inserted.all [⟨.punct .closeBrace, q⟩])
  rwa [List.append_nil] at hclosed

theorem KeptClosing.of_append (h : KeptBalanced o ts) (h' : KeptClosing depth o' us) :
    KeptClosing depth (o ++ o') (ts ++ us) := by
  obtain ⟨kept, hkept, hbalanced⟩ := h
  obtain ⟨kept', us, p, rfl, hkept', hopen⟩ := h'
  refine ⟨kept ++ kept', ts ++ us, p, (List.append_assoc ..).symm, hkept.append hkept', ?_⟩
  rw [openAfter_append, hbalanced.openAfter_eq]
  exact hopen

end Kept

theorem ForStartRead.kept {ts : List Token} {o : List (List Token)} {start : Option ForStart}
    (h : ForStartRead ts o start) : KeptBalanced o ts := by
  cases h with
  | form h => exact h.balanced.kept
  | leftOut => exact keptBalanced_omitted _

theorem ForIncrementRead.kept {ts : List Token} {o : List (List Token)}
    {increment : Option Assignment} (h : ForIncrementRead ts o increment) : KeptBalanced o ts := by
  cases h with
  | form h => exact h.braceless.kept
  | leftOut => exact keptBalanced_omitted _

mutual

theorem StmtRead.kept : ∀ {ts : List Token} {o : List (List Token)} {s : Stmt},
    StmtRead ts o s → KeptBalanced o ts
  | _, _, _, .declare h => h.balanced.kept
  | _, _, _, .assign h => Braceless.kept (by simp [h.braceless])
  | _, _, _, .ret h => Braceless.kept (by simp [h.braceless])
  | _, _, _, @StmtRead.branch c _ _ _ _ _ _ _ p q r s condition body otherwise => by
    have hhead : Braceless (⟨.keyword .ifKw, p⟩ :: parenthesized q c r) := by
      simp [condition.braceless]
    exact hhead.kept.append ((body.kept.braced s).append otherwise.kept)
  | _, _, _, @StmtRead.whileLoop c _ _ _ _ p q r s condition body => by
    have hhead : Braceless (⟨.keyword .whileKw, p⟩ :: parenthesized q c r) := by
      simp [condition.braceless]
    exact hhead.kept.append (body.kept.braced s)
  | _, _, _, @StmtRead.forLoop i c n b o o' o'' _ _ _ _ p q r s start condition increment body => by
    have hfront : Braceless [⟨.keyword .forKw, p⟩, ⟨.punct .openParen, q⟩] := by simp
    have hback : Braceless [⟨.punct .closeParen, r⟩] := by simp
    have hheader := start.kept.append (condition.braceless.kept.append increment.kept)
    have hall := hfront.kept.append (hheader.append (hback.kept.append (body.kept.braced s)))
    simp only [List.nil_append, List.append_assoc, List.cons_append] at hall
    simpa only [parenthesized_append, List.append_assoc, List.cons_append] using hall
  | _, _, _, .jump => Braceless.kept (by simp)

theorem AlternativeRead.kept : ∀ {ts : List Token} {o : List (List Token)} {a : Alternative},
    AlternativeRead ts o a → KeptBalanced o ts
  | _, _, _, .none => braceless_nil.kept
  | _, _, _, @AlternativeRead.body _ _ _ p q body => by
    have hhead : Braceless [⟨.keyword .elseKw, p⟩] := by simp
    exact hhead.kept.append (body.kept.braced q)
  | _, _, _, @AlternativeRead.branch c _ _ _ _ _ _ _ p q r s t condition body otherwise => by
    have hhead : Braceless
        (⟨.keyword .elseKw, p⟩ :: ⟨.keyword .ifKw, q⟩ :: parenthesized r c s) := by
      simp [condition.braceless]
    exact hhead.kept.append ((body.kept.braced t).append otherwise.kept)

/-- **What is kept of a body is balanced.** -/
theorem BlockRead.kept : ∀ {depth : Nat} {ts : List Token} {o : List (List Token)} {ss : Block},
    BlockRead depth ts o ss → KeptClosing depth o ts
  | _, _, _, _, @BlockRead.last p => ⟨[], [], p, rfl, .nil, rfl⟩
  | _, _, _, _, .close others => by
    obtain ⟨kept, us, q, rfl, hkept, hopen⟩ := others.kept
    exact ⟨_ :: kept, _ :: us, q, rfl, .keep hkept, (openAfter_close (by decide) rfl).trans hopen⟩
  | _, _, _, _, .open others => by
    obtain ⟨kept, us, q, rfl, hkept, hopen⟩ := others.kept
    exact ⟨_ :: kept, _ :: us, q, rfl, .keep hkept, (openAfter_open rfl).trans hopen⟩
  | _, _, _, _, .stmt first others => .of_append first.kept others.kept
  | _, _, _, _, .leftOut _ others => .of_append (keptBalanced_omitted _) others.kept

end

/-! ## The end of a body -/

/-- How often a mark stands among some tokens. -/
def countMark (mark : Punct) (ts : List Token) : Nat :=
  ts.countP fun t => t.symbol = .punct mark

theorem countMark_cons (mark : Punct) (t : Token) (ts : List Token) :
    countMark mark (t :: ts) =
      countMark mark ts + if t.symbol = .punct mark then 1 else 0 := by
  rw [countMark, List.countP_cons]
  simp only [decide_eq_true_eq]
  rfl

/-- The marks that are open at the end were open before or are opened, and are not closed. -/
theorem countMark_of_openAfter {opening closing : Punct} (hne : opening ≠ closing)
    {depth after : Nat} {ts : List Token}
    (h : openAfter opening closing depth ts = some after) :
    depth + countMark opening ts = after + countMark closing ts := by
  induction ts generalizing depth with
  | nil =>
    cases h
    rfl
  | cons t ts ih =>
    rw [countMark_cons, countMark_cons]
    rw [openAfter] at h
    by_cases hopen : t.symbol = .punct opening
    · have hclose : t.symbol ≠ .punct closing := by
        rw [hopen]
        exact fun heq => hne (Symbol.punct.inj heq)
      rw [if_pos hopen] at h
      rw [if_pos hopen, if_neg hclose]
      have hcount := ih h
      omega
    · rw [if_neg hopen] at h ⊢
      by_cases hclose : t.symbol = .punct closing
      · rw [if_pos hclose] at h ⊢
        by_cases hdepth : depth = 0
        · rw [if_pos hdepth] at h
          cases h
        · rw [if_neg hdepth] at h
          have hcount := ih h
          omega
      · rw [if_neg hclose] at h ⊢
        exact ih h

theorem BraceBalanced.countMark_eq {ts : List Token} (h : BraceBalanced ts) :
    countMark .openBrace ts = countMark .closeBrace ts := by
  have hcount := countMark_of_openAfter (by decide) h
  omega

theorem countMark_eq_zero {mark : Punct} {ts : List Token} :
    countMark mark ts = 0 ↔ ∀ t ∈ ts, t.symbol ≠ .punct mark := by
  rw [countMark, List.countP_eq_zero]
  simp only [decide_eq_true_eq, ne_eq]

namespace BlockRead

variable {body : List Token} {p : Position} {o : List (List Token)} {ss : Block}

theorem exists_inserted (h : BlockRead 0 (body ++ [⟨.punct .closeBrace, p⟩]) o ss) :
    ∃ kept, Inserted kept o body ∧ BraceBalanced kept := by
  obtain ⟨kept, us, q, heq, hkept, hbalanced⟩ := h.kept
  obtain ⟨rfl, -⟩ := List.append_inj' heq rfl
  exact ⟨kept, hkept, hbalanced⟩

/-- A body is balanced where all that is left out of it is. -/
theorem balanced (h : BlockRead 0 (body ++ [⟨.punct .closeBrace, p⟩]) o ss)
    (ho : ∀ us ∈ o, BraceBalanced us) : BraceBalanced body := by
  obtain ⟨kept, hkept, hbalanced⟩ := h.exists_inserted
  exact (hkept.openAfter_eq ho 0).trans hbalanced

/-- As many braces are opened as closed in what is left out of a balanced body. -/
theorem countMark_omitted (h : BlockRead 0 (body ++ [⟨.punct .closeBrace, p⟩]) o ss)
    (hbody : BraceBalanced body) :
    countMark .openBrace o.flatten = countMark .closeBrace o.flatten := by
  obtain ⟨kept, hkept, hbalanced⟩ := h.exists_inserted
  have hopen : countMark .openBrace body =
      countMark .openBrace kept + countMark .openBrace o.flatten := hkept.countP_eq _
  have hclose : countMark .closeBrace body =
      countMark .closeBrace kept + countMark .closeBrace o.flatten := hkept.countP_eq _
  have hsame := hbody.countMark_eq
  have hsame' := hbalanced.countMark_eq
  omega

/-- Where no closing brace is left out of a balanced body, no brace is. -/
theorem balanced_omitted (h : BlockRead 0 (body ++ [⟨.punct .closeBrace, p⟩]) o ss)
    (hclose : ∀ us ∈ o, ∀ t ∈ us, t.symbol ≠ .punct .closeBrace) (hbody : BraceBalanced body) :
    ∀ us ∈ o, BraceBalanced us := by
  have hnone : countMark .closeBrace o.flatten = 0 := by
    rw [countMark_eq_zero]
    intro t ht
    obtain ⟨us, hus, htus⟩ := List.mem_flatten.1 ht
    exact hclose us hus t htus
  have hopen : ∀ t ∈ o.flatten, t.symbol ≠ .punct .openBrace := by
    rw [← countMark_eq_zero, h.countMark_omitted hbody, hnone]
  intro us hus
  apply balanced_of_forall
  intro t ht
  exact ⟨hopen t (List.mem_flatten.2 ⟨us, hus, ht⟩), hclose us hus t ht⟩

end BlockRead

open Cursor in
/-- **Where a body ends.** When a body has been read, it ends with a closing brace, and all before
it is made up of statements and of stretches that are left out. The brace is the one that matches
the opening brace, with all braces counted, if each stretch left out is balanced. This is also
necessary, unless a closing brace is left out, which can happen in a `for` header only. -/
theorem Parse.block_balanced_of_omitted {place : Place} {inLoop : Bool} {table table' : ShapeTable}
    {ts rest : List Token} {ss : Block}
    (h : Reads (block place inLoop 0 table ts).outcome (ss, table') rest) :
    ∃ body p, ts = body ++ ⟨.punct .closeBrace, p⟩ :: rest ∧
      (∃ omitted, BlockRead 0 (body ++ [⟨.punct .closeBrace, p⟩]) omitted ss) ∧
      ∀ omitted, BlockRead 0 (body ++ [⟨.punct .closeBrace, p⟩]) omitted ss →
        ((∀ us ∈ omitted, BraceBalanced us) → BraceBalanced body) ∧
        ((∀ us ∈ omitted, ∀ t ∈ us, t.symbol ≠ .punct .closeBrace) → BraceBalanced body →
          ∀ us ∈ omitted, BraceBalanced us) := by
  obtain ⟨taken, o, rfl, hread, -, -⟩ := block_read h
  obtain ⟨kept, body, p, rfl, -, -⟩ := hread.kept
  refine ⟨body, p, ?_, ⟨o, hread⟩, fun omitted hread' => ?_⟩
  · rw [List.append_assoc, List.singleton_append]
  · exact ⟨hread'.balanced, hread'.balanced_omitted⟩

/-- A call is left out of a body, which ends at its own brace. -/
theorem block_balanced_of_omitted_call :
    let call : List Token :=
      [⟨.name "g", ⟨1, 1⟩⟩, ⟨.punct .openParen, ⟨1, 2⟩⟩, ⟨.punct .closeParen, ⟨1, 3⟩⟩,
        ⟨.punct .semicolon, ⟨1, 4⟩⟩]
    let ret : List Token :=
      [⟨.keyword .returnKw, ⟨2, 1⟩⟩, ⟨.number "2", ⟨2, 8⟩⟩, ⟨.punct .semicolon, ⟨2, 9⟩⟩]
    let brace : Token := ⟨.punct .closeBrace, ⟨3, 1⟩⟩
    let ss : Block := [.ret (some (.number "2")) ⟨2, 1⟩]
    Reads (Parse.block .endOfBody false 0 .empty (call ++ ret ++ [brace])).outcome (ss, .empty) [] ∧
      BlockRead 0 (call ++ ret ++ [brace]) [call] ss ∧ BraceBalanced (call ++ ret) := by
  intro call ret brace ss
  have hreads : Reads (Parse.block .endOfBody false 0 .empty (call ++ ret ++ [brace])).outcome
      (ss, .empty) [] :=
    ⟨⟨⟨call ++ ret ++ [brace], by decide, by decide⟩, by decide⟩, by with_unfolding_all rfl⟩
  have htail : StatementTail (call.tail) (.keyword .returnKw) :=
    @StatementTail.semicolon [_, _] _ _ (by decide)
  have hread : BlockRead 0 (call ++ (ret ++ [brace])) [call] ss :=
    .leftOut (.name (by decide) (by decide) htail)
      (.stmt (.ret (.value (ExprAt.number.loosen (by decide) (Nat.le_refl _)))) .last)
  obtain ⟨body, p, hts, -, hall⟩ := Parse.block_balanced_of_omitted hreads
  obtain ⟨rfl, hp⟩ := List.append_inj' hts rfl
  obtain rfl : p = ⟨3, 1⟩ := congrArg Token.position (List.cons.inj hp).1.symm
  exact ⟨hreads, hread, (hall [call] hread).1 (List.forall_mem_singleton.2 (by decide))⟩

/-- **A function cut short.** The statement `g { 1;` is left out with the brace in it, and so the
brace after it is taken for the end of the function: the `return` behind it is lost. -/
theorem function_cut_short :
    let front : List Token :=
      [⟨.keyword (.type .int), ⟨1, 1⟩⟩, ⟨.name "f", ⟨1, 5⟩⟩, ⟨.punct .openParen, ⟨1, 6⟩⟩,
        ⟨.keyword (.type .int), ⟨1, 7⟩⟩, ⟨.name "x", ⟨1, 11⟩⟩, ⟨.punct .closeParen, ⟨1, 12⟩⟩,
        ⟨.punct .openBrace, ⟨1, 14⟩⟩]
    let body : List Token :=
      [⟨.name "g", ⟨1, 16⟩⟩, ⟨.punct .openBrace, ⟨1, 18⟩⟩, ⟨.number "1", ⟨1, 20⟩⟩,
        ⟨.punct .semicolon, ⟨1, 21⟩⟩]
    let rest : List Token :=
      [⟨.keyword .returnKw, ⟨1, 25⟩⟩, ⟨.name "x", ⟨1, 32⟩⟩, ⟨.punct .semicolon, ⟨1, 33⟩⟩,
        ⟨.punct .closeBrace, ⟨1, 35⟩⟩, ⟨.eof, ⟨1, 36⟩⟩]
    scan "int f(int x) { g { 1; } return x; }" =
      .ok (front ++ (body ++ ⟨.punct .closeBrace, ⟨1, 23⟩⟩ :: rest)) ∧
    (Program.ofSource "int f(int x) { g { 1; } return x; }").outcome =
      .ok ⟨[⟨"f", .int, [⟨.int, "x"⟩], [], ⟨1, 5⟩⟩]⟩ ∧
    Reads (Parse.block .endOfBody false 0 .empty
      (body ++ ⟨.punct .closeBrace, ⟨1, 23⟩⟩ :: rest)).outcome ([], .empty) rest ∧
    ¬ BraceBalanced body := by
  intro front body rest
  have hleft : Beyond rest (body ++ ⟨.punct .closeBrace, ⟨1, 23⟩⟩ :: rest) :=
    ⟨⟨body ++ [⟨.punct .closeBrace, ⟨1, 23⟩⟩], by decide, by decide⟩, by decide⟩
  exact ⟨by with_unfolding_all rfl, by with_unfolding_all rfl,
    ⟨hleft, by with_unfolding_all rfl⟩, by decide⟩

end ClockedC
