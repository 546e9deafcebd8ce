import ClockedC.Proofs.DeclarationParser

/-!
# Reading statements by their grammar

What is read without a complaint is what the grammar derives: the tokens that are left out are
always reported.

* `block_sound`: the tokens of a body that was read are derived as the statements read.
* `BlockForm.reads`: a body that is derived is read.
* `readsQuietly_block`: both together, for the body after an opening brace.
-/

namespace ClockedC

namespace Parse

open Cursor

variable {table table' : ShapeTable} {ts rest : List Token}

/-! ## Loop headers -/

/-- Either an assignment to a name comes next, or there is none. -/
theorem assignedName?_cases (ts : List Token) :
    (∃ n p q us h, ts = ⟨.name n, p⟩ :: ⟨.operator "=", q⟩ :: us ∧
      assignedName? ts = some ⟨(n, p), us, h⟩) ∨
    assignedName? ts = none ∧ ∀ n p q us, ts ≠ ⟨.name n, p⟩ :: ⟨.operator "=", q⟩ :: us := by
  rcases next?_cases ts with ⟨s, p, us, h, rfl, hnext⟩ | ⟨heof, hnext⟩
  · rw [assignedName?, hnext]
    cases s with
    | name n =>
      dsimp only
      rcases accept_cases (s := .operator "=") (by simp) us with
        ⟨q, us, h', rfl, hacc⟩ | ⟨hne, hacc⟩
      · rw [hacc]
        exact .inl ⟨n, p, q, us, _, rfl, rfl⟩
      · rw [hacc]
        refine .inr ⟨rfl, ?_⟩
        rintro n' p' q us' heq
        cases heq
        exact hne rfl
    | _ => exact .inr ⟨rfl, nofun⟩
  · rw [assignedName?, hnext]
    refine .inr ⟨rfl, ?_⟩
    rintro n p q us rfl
    cases heof

theorem stepOperator?_eq_some {spelling : String} {op : BinaryOp} :
    stepOperator? spelling = some op ↔ StepSpelling spelling op := by
  rw [stepOperator?]
  constructor
  · intro h
    split at h
    · next hup =>
      cases h
      exact hup ▸ .up
    · split at h
      · next hdown =>
        cases h
        exact hdown ▸ .down
      · cases h
  · rintro (_ | _) <;> decide

theorem stepOf?_eq_some {first second : Symbol} {n : String} {op : BinaryOp} :
    stepOf? first second = some (n, op) ↔ ∃ spelling, StepSpelling spelling op ∧
      (first = .name n ∧ second = .operator spelling ∨
        first = .operator spelling ∧ second = .name n) := by
  constructor
  · intro h
    unfold stepOf? at h
    split at h
    · next n' spelling =>
      obtain ⟨op', hop, heq⟩ := Option.map_eq_some_iff.1 h
      cases heq
      exact ⟨spelling, stepOperator?_eq_some.1 hop, .inl ⟨rfl, rfl⟩⟩
    · next spelling n' =>
      obtain ⟨op', hop, heq⟩ := Option.map_eq_some_iff.1 h
      cases heq
      exact ⟨spelling, stepOperator?_eq_some.1 hop, .inr ⟨rfl, rfl⟩⟩
    · cases h
  · rintro ⟨spelling, hstep, ⟨rfl, rfl⟩ | ⟨rfl, rfl⟩⟩
    all_goals
      rw [stepOf?, stepOperator?_eq_some.2 hstep]
      rfl

theorem stepOf?_eof (s : Symbol) : stepOf? s .eof = none := by
  cases s <;> rfl

/-- Either a step comes next, or there is none. -/
theorem step?_cases (ts : List Token) :
    (∃ s p s' p' n op us h, ts = ⟨s, p⟩ :: ⟨s', p'⟩ :: us ∧ stepOf? s s' = some (n, op) ∧
      step? ts = some ⟨(n, op), us, h⟩) ∨
    step? ts = none ∧ ∀ s p s' p' us, ts = ⟨s, p⟩ :: ⟨s', p'⟩ :: us → stepOf? s s' = none := by
  rcases next?_cases ts with ⟨s, p, us, h, rfl, hnext⟩ | ⟨heof, hnext⟩
  · rcases next?_cases us with ⟨s', p', us, h', rfl, hnext'⟩ | ⟨heof, hnext'⟩
    · cases hstep : stepOf? s s' with
      | none =>
        refine .inr ⟨?_, ?_⟩
        · simp only [step?, hnext, hnext', hstep]
        · intro _ _ _ _ _ heq
          cases heq
          exact hstep
      | some step =>
        refine .inl ⟨s, p, s', p', step.1, step.2, us, h.andThen h', rfl, hstep, ?_⟩
        simp only [step?, hnext, hnext', hstep]
    · refine .inr ⟨?_, ?_⟩
      · simp only [step?, hnext, hnext']
      · rintro _ _ s' p' us' heq
        cases heq
        rw [show s' = .eof from heof]
        exact stepOf?_eof _
  · refine .inr ⟨?_, ?_⟩
    · simp only [step?, hnext]
    · rintro s p _ _ us rfl
      rw [show s = .eof from heof]
      rfl

theorem assignedName?_assignment (n : String) (p q : Position) (us : List Token) :
    ∃ h, assignedName? (⟨.name n, p⟩ :: ⟨.operator "=", q⟩ :: us) = some ⟨(n, p), us, h⟩ := by
  rcases assignedName?_cases (⟨.name n, p⟩ :: ⟨.operator "=", q⟩ :: us) with
    ⟨n', p', q', us', h, heq, hname⟩ | ⟨-, hno⟩
  · cases heq
    exact ⟨h, hname⟩
  · exact absurd rfl (hno n p q us)

theorem passesQuietly_forStart_nothing {p : Position} {start : Option ForStart} :
    PassesQuietly (forStart table (⟨.punct .semicolon, p⟩ :: ts)) (start, table') rest ↔
      start = none ∧ table' = table ∧ rest = ts := by
  rw [forStart, accept_punct]
  dsimp only
  rw [passesQuietly_pure, Prod.mk.injEq, and_assoc]

theorem passesQuietly_forStart_assign {n : String} {p q : Position} {start : Option ForStart} :
    PassesQuietly (forStart table (⟨.name n, p⟩ :: ⟨.operator "=", q⟩ :: ts)) (start, table')
      rest ↔
      ∃ e r, start = some (.assign ⟨.name n, e, p⟩) ∧ table' = table ∧
        Reads (value table ts) e (⟨.punct .semicolon, r⟩ :: rest) := by
  obtain ⟨h, hname⟩ := assignedName?_assignment n p q ts
  rw [forStart, accept_eq_none (by simp), hname]
  simp only [passesQuietly_bind, Logged.quiet_lift, Read.exists, passesQuietly_pure,
    exists_and_right, exists_reads, reads_expect, Prod.mk.injEq]
  constructor
  · rintro ⟨e, mid, hread, u, mid', ⟨r, rfl⟩, ⟨rfl, rfl⟩, rfl⟩
    exact ⟨e, r, rfl, rfl, hread⟩
  · rintro ⟨e, r, rfl, rfl, hread⟩
    exact ⟨e, _, hread, (), rest, ⟨r, rfl⟩, ⟨rfl, rfl⟩, rfl⟩

theorem passesQuietly_forStart_declare {type : ScalarType} {p : Position}
    {start : Option ForStart} (htype : type ≠ .void) :
    PassesQuietly (forStart table (⟨.keyword (.type type), p⟩ :: ts)) (start, table') rest ↔
      ∃ d, Reads (declaration table type p ts) (d, table') rest ∧ start = some (.declare d) := by
  have hname : assignedName? (⟨.keyword (.type type), p⟩ :: ts) = none := by
    rcases assignedName?_cases (⟨.keyword (.type type), p⟩ :: ts) with
      ⟨_, _, _, _, _, heq, -⟩ | ⟨hname, -⟩
    · cases heq
    · exact hname
  rw [forStart, accept_eq_none (by simp), hname, variableType?_type htype]
  simp only [passesQuietly_bind, Logged.quiet_lift, Read.exists, Prod.exists, passesQuietly_pure,
    exists_and_right, exists_reads, Prod.mk.injEq]
  constructor
  · rintro ⟨d, next, mid, hread, ⟨rfl, rfl⟩, rfl⟩
    exact ⟨d, hread, rfl⟩
  · rintro ⟨d, hread, rfl⟩
    exact ⟨d, table', rest, hread, ⟨rfl, rfl⟩, rfl⟩

/-- Nothing else is taken for the start of a `for` loop without a complaint. -/
theorem forStart_cases {start : Option ForStart}
    (h : PassesQuietly (forStart table ts) (start, table') rest) :
    (∃ p us, ts = ⟨.punct .semicolon, p⟩ :: us) ∨
    (∃ n p q us, ts = ⟨.name n, p⟩ :: ⟨.operator "=", q⟩ :: us) ∨
    ∃ type p us, type ≠ .void ∧ ts = ⟨.keyword (.type type), p⟩ :: us := by
  rcases accept_cases (s := .punct .semicolon) (by simp) ts with ⟨p, us, -, rfl, -⟩ | ⟨-, hacc⟩
  · exact .inl ⟨p, us, rfl⟩
  rcases assignedName?_cases ts with ⟨n, p, q, us, -, rfl, -⟩ | ⟨hname, -⟩
  · exact .inr (.inl ⟨n, p, q, us, rfl⟩)
  rcases variableType?_cases ts with ⟨type, p, us, htype, rfl⟩ | htype
  · exact .inr (.inr ⟨type, p, us, htype, rfl⟩)
  rw [forStart, hacc, hname, htype] at h
  obtain ⟨_, hquiet⟩ := h
  exact absurd hquiet (Logged.not_quiet_complaint (.inl rfl))

theorem passesQuietly_forStart {start : Option ForStart} :
    PassesQuietly (forStart table ts) (start, table') rest ↔
      ∃ taken, ts = taken ++ rest ∧ ForStartForm taken start ∧
        table.Follows ((start.map ForStart.mentions).getD []) table' := by
  constructor
  · intro hpass
    rcases forStart_cases hpass with ⟨p, us, rfl⟩ | ⟨n, p, q, us, rfl⟩ | ⟨type, p, us, htype, rfl⟩
    · obtain ⟨rfl, rfl, rfl⟩ := passesQuietly_forStart_nothing.1 hpass
      exact ⟨[_], rfl, .nothing, rfl⟩
    · obtain ⟨e, r, rfl, rfl, hread⟩ := passesQuietly_forStart_assign.1 hpass
      obtain ⟨taken, rfl, hat, hin⟩ := (reads_value_before .semicolon (by simp) (by simp)).1 hread
      refine ⟨⟨.name n, p⟩ :: ⟨.operator "=", q⟩ :: (taken ++ [⟨.punct .semicolon, r⟩]), ?_,
        .assign hat, ShapeTable.follows_mentions.2 ⟨hin, rfl⟩⟩
      simp only [List.cons_append, List.append_assoc, List.nil_append]
    · obtain ⟨d, hread, rfl⟩ := (passesQuietly_forStart_declare htype).1 hpass
      obtain ⟨taken, rfl, hform, hfollows⟩ := (reads_declaration htype).1 hread
      exact ⟨_ :: taken, rfl, .declare hform, hfollows⟩
  · rintro ⟨taken, rfl, hform, hfollows⟩
    cases hform with
    | nothing => exact passesQuietly_forStart_nothing.2 ⟨rfl, hfollows, rfl⟩
    | declare hform =>
      cases hform with
      | mk htype hinit =>
        exact (passesQuietly_forStart_declare htype).2
          ⟨_, (reads_declaration htype).2 ⟨_, rfl, .mk htype hinit, hfollows⟩, rfl⟩
    | @assign n us e p q r hat =>
      obtain ⟨hin, rfl⟩ := ShapeTable.follows_mentions.1 hfollows
      rw [List.cons_append, List.cons_append, List.append_assoc, List.singleton_append]
      exact passesQuietly_forStart_assign.2
        ⟨e, r, rfl, rfl, (reads_value_before .semicolon (by simp) (by simp)).2 ⟨us, rfl, hat, hin⟩⟩

theorem reads_forCondition {e : Expr} :
    Reads (forCondition table ts) e rest ↔
      ∃ taken, ts = taken ++ rest ∧ ForConditionForm taken e ∧ e.InBounds table := by
  constructor
  · intro hread
    rw [forCondition] at hread
    rcases accept_cases (s := .punct .semicolon) (by simp) ts with ⟨p, us, h, rfl, hacc⟩ | ⟨-, hacc⟩
    · rw [hacc] at hread
      obtain ⟨rfl, rfl⟩ := reads_ok.1 hread
      exact ⟨[_], rfl, .always, nofun⟩
    · rw [hacc] at hread
      simp only [reads_bind, Read.exists, reads_pure, exists_and_right, exists_reads,
        reads_expect] at hread
      obtain ⟨e, mid, hread, u, mid', ⟨p, rfl⟩, rfl, rfl⟩ := hread
      obtain ⟨taken, rfl, hat, hin⟩ := (reads_value_before .semicolon (by simp) (by simp)).1 hread
      refine ⟨taken ++ [⟨.punct .semicolon, p⟩], ?_, .expr hat, hin⟩
      rw [List.append_assoc, List.singleton_append]
  · rintro ⟨taken, rfl, hform, hin⟩
    cases hform with
    | always =>
      rw [forCondition, List.singleton_append, accept_punct]
      exact reads_ok.2 ⟨rfl, rfl⟩
    | @expr us _ p hat =>
      rw [List.append_assoc, List.singleton_append, forCondition,
        accept_eq_none (hat.symbol_append_ne .semicolon (by simp) _)]
      simp only [reads_bind, Read.exists, reads_pure, exists_and_right, exists_reads,
        reads_expect]
      exact ⟨e, _, (reads_value_before .semicolon (by simp) (by simp)).2 ⟨us, rfl, hat, hin⟩, (),
        rest, ⟨p, rfl⟩, rfl, rfl⟩

theorem step?_step {s s' : Symbol} {n : String} {op : BinaryOp}
    (hstep : stepOf? s s' = some (n, op)) (p p' : Position) (us : List Token) :
    ∃ h, step? (⟨s, p⟩ :: ⟨s', p'⟩ :: us) = some ⟨(n, op), us, h⟩ := by
  rcases step?_cases (⟨s, p⟩ :: ⟨s', p'⟩ :: us) with ⟨_, _, _, _, _, _, _, h, heq, hof, hstep?⟩ |
    ⟨-, hno⟩
  · cases heq
    cases hstep.symm.trans hof
    exact ⟨h, hstep?⟩
  · cases hstep.symm.trans (hno s p s' p' us rfl)

theorem step?_assignment (n : String) (p q : Position) (us : List Token) :
    step? (⟨.name n, p⟩ :: ⟨.operator "=", q⟩ :: us) = none := by
  rcases step?_cases (⟨.name n, p⟩ :: ⟨.operator "=", q⟩ :: us) with
    ⟨_, _, _, _, _, _, _, _, heq, hof, -⟩ | ⟨hnone, -⟩
  · cases heq
    cases hof
  · exact hnone

section ForIncrement

variable {increment : Option Assignment} {p q : Position}

theorem passesQuietly_forIncrement_nothing :
    PassesQuietly (forIncrement table (⟨.punct .closeParen, p⟩ :: ts)) increment rest ↔
      increment = none ∧ rest = ⟨.punct .closeParen, p⟩ :: ts := by
  rw [forIncrement, if_pos (symbol_cons _ ts)]
  exact passesQuietly_pure

theorem passesQuietly_forIncrement_step {s s' : Symbol} {n : String} {op : BinaryOp}
    (hstep : stepOf? s s' = some (n, op)) :
    PassesQuietly (forIncrement table (⟨s, p⟩ :: ⟨s', q⟩ :: ts)) increment rest ↔
      increment = some (stepAssignment n op p) ∧ rest = ts := by
  have hopen : symbol (⟨s, p⟩ :: ⟨s', q⟩ :: ts) ≠ .punct .closeParen := by
    intro hs
    cases (symbol_cons _ _).symm.trans hs
    cases hstep
  obtain ⟨h, hstep?⟩ := step?_step hstep p q ts
  rw [forIncrement, if_neg hopen, hstep?]
  exact passesQuietly_pure

theorem passesQuietly_forIncrement_assign {n : String} :
    PassesQuietly (forIncrement table (⟨.name n, p⟩ :: ⟨.operator "=", q⟩ :: ts)) increment rest ↔
      ∃ e, increment = some ⟨.name n, e, p⟩ ∧ Reads (value table ts) e rest := by
  obtain ⟨h, hname⟩ := assignedName?_assignment n p q ts
  have hopen : symbol (⟨.name n, p⟩ :: ⟨.operator "=", q⟩ :: ts) ≠ .punct .closeParen := by simp
  rw [forIncrement, if_neg hopen, step?_assignment, hname]
  simp only [passesQuietly_bind, Logged.quiet_lift, Read.exists, passesQuietly_pure,
    exists_and_right, exists_reads]
  constructor
  · rintro ⟨e, mid, hread, rfl, rfl⟩
    exact ⟨e, rfl, hread⟩
  · rintro ⟨e, rfl, hread⟩
    exact ⟨e, rest, hread, rfl, rfl⟩

/-- Nothing else is taken for the increment of a `for` loop without a complaint. -/
theorem forIncrement_cases (h : PassesQuietly (forIncrement table ts) increment rest) :
    (∃ p us, ts = ⟨.punct .closeParen, p⟩ :: us) ∨
    (∃ s p s' q n op us, ts = ⟨s, p⟩ :: ⟨s', q⟩ :: us ∧ stepOf? s s' = some (n, op)) ∨
    ∃ n p q us, ts = ⟨.name n, p⟩ :: ⟨.operator "=", q⟩ :: us := by
  by_cases hclose : symbol ts = .punct .closeParen
  · exact .inl (exists_of_symbol_eq (by simp) hclose)
  rcases step?_cases ts with ⟨s, p, s', q, n, op, us, -, rfl, hstep, -⟩ | ⟨hstep?, -⟩
  · exact .inr (.inl ⟨s, p, s', q, n, op, us, rfl, hstep⟩)
  rcases assignedName?_cases ts with ⟨n, p, q, us, -, rfl, -⟩ | ⟨hname, -⟩
  · exact .inr (.inr ⟨n, p, q, us, rfl⟩)
  rw [forIncrement, if_neg hclose, hstep?] at h
  dsimp only at h
  rw [hname] at h
  obtain ⟨_, hquiet⟩ := h
  exact absurd hquiet (Logged.not_quiet_complaint (.inl rfl))

theorem passesQuietly_forIncrement :
    PassesQuietly (forIncrement table ts) increment (⟨.punct .closeParen, p⟩ :: rest) ↔
      ∃ taken, ts = taken ++ ⟨.punct .closeParen, p⟩ :: rest ∧
        ForIncrementForm taken increment ∧
        table.Follows ((increment.map Assignment.mentions).getD []) table := by
  constructor
  · intro hpass
    rcases forIncrement_cases hpass with ⟨q, us, rfl⟩ |
      ⟨s, q, s', r, n, op, us, rfl, hstep⟩ | ⟨n, q, r, us, rfl⟩
    · obtain ⟨rfl, heq⟩ := passesQuietly_forIncrement_nothing.1 hpass
      exact ⟨[], heq.symm, .nothing, rfl⟩
    · obtain ⟨rfl, rfl⟩ := (passesQuietly_forIncrement_step hstep).1 hpass
      obtain ⟨spelling, hspelling, ⟨rfl, rfl⟩ | ⟨rfl, rfl⟩⟩ := stepOf?_eq_some.1 hstep
      · exact ⟨[_, _], rfl, .stepAfter hspelling, rfl⟩
      · exact ⟨[_, _], rfl, .stepBefore hspelling, rfl⟩
    · obtain ⟨e, rfl, hread⟩ := passesQuietly_forIncrement_assign.1 hpass
      obtain ⟨taken, rfl, hat, hin⟩ := (reads_value_before .closeParen (by simp) (by simp)).1 hread
      exact ⟨_ :: _ :: taken, rfl, .assign hat, ShapeTable.follows_mentions.2 ⟨hin, rfl⟩⟩
  · rintro ⟨taken, rfl, hform, hfollows⟩
    cases hform with
    | nothing => exact passesQuietly_forIncrement_nothing.2 ⟨rfl, rfl⟩
    | @stepAfter n spelling op q r hspelling =>
      have hstep := stepOf?_eq_some.2 ⟨spelling, hspelling, .inl ⟨Eq.refl (Symbol.name n), rfl⟩⟩
      exact (passesQuietly_forIncrement_step hstep).2 ⟨rfl, rfl⟩
    | @stepBefore n spelling op q r hspelling =>
      have hstep := stepOf?_eq_some.2 ⟨spelling, hspelling, .inr ⟨rfl, Eq.refl (Symbol.name n)⟩⟩
      exact (passesQuietly_forIncrement_step hstep).2 ⟨rfl, rfl⟩
    | assign hat =>
      obtain ⟨hin, -⟩ := ShapeTable.follows_mentions.1 hfollows
      exact passesQuietly_forIncrement_assign.2
        ⟨_, rfl, (reads_value_before .closeParen (by simp) (by simp)).2 ⟨_, rfl, hat, hin⟩⟩

end ForIncrement

/-- What is mentioned between the word `for` and the body of the loop. -/
def ForHeader.mentions (header : ForHeader) : List Mention :=
  (header.start.map ForStart.mentions).getD [] ++ (header.condition.mentions ++
    (header.increment.map Assignment.mentions).getD [])

theorem readsQuietly_forHeader {header : ForHeader} :
    ReadsQuietly (forHeader table ts) (header, table') rest ↔
      ∃ i c n, ForStartForm i header.start ∧ ForConditionForm c header.condition ∧
        ForIncrementForm n header.increment ∧ table.Follows header.mentions table' ∧
        ∃ p q r,
          ts = parenthesized p (i ++ (c ++ n)) q ++ ⟨.punct .openBrace, r⟩ :: rest := by
  rw [forHeader]
  simp only [readsQuietly_bind, Logged.quiet_lift, Read.exists, Pass.exists, Prod.exists,
    readsQuietly_pure, exists_and_right, exists_reads, exists_passesQuietly, reads_expect,
    parenthesized_append]
  constructor
  · rintro ⟨u, mid, ⟨p, rfl⟩, start, next, mid₁, hstart, e, mid₂, hcondition, increment, mid₃,
      hincrement, u', mid₄, ⟨q, rfl⟩, u'', mid₅, ⟨r, rfl⟩, heq, rfl⟩
    cases heq
    obtain ⟨i, rfl, hi, hfollows⟩ := passesQuietly_forStart.1 hstart
    obtain ⟨c, rfl, hc, hin⟩ := reads_forCondition.1 hcondition
    obtain ⟨n, rfl, hn, hfollows'⟩ := passesQuietly_forIncrement.1 hincrement
    refine ⟨i, c, n, hi, hc, hn, ?_, p, q, r, ?_⟩
    · refine ShapeTable.follows_append.2 ⟨table', hfollows, ?_⟩
      exact ShapeTable.follows_append.2
        ⟨table', ShapeTable.follows_mentions.2 ⟨hin, rfl⟩, hfollows'⟩
    · rw [List.append_assoc, List.append_assoc]
  · rintro ⟨i, c, n, hi, hc, hn, hfollows, p, q, r, rfl⟩
    obtain ⟨next, hfollows, hlater⟩ := ShapeTable.follows_append.1 hfollows
    obtain ⟨next', hcondition, hincrement⟩ := ShapeTable.follows_append.1 hlater
    obtain ⟨hin, rfl⟩ := ShapeTable.follows_mentions.1 hcondition
    -- neither the condition nor the increment declares anything
    have hsame : table' = next' := by
      cases hinc : header.increment with
      | none =>
        rw [hinc] at hincrement
        exact hincrement
      | some a =>
        rw [hinc] at hincrement
        exact hincrement.eq_of_assignment
    subst hsame
    rw [List.append_assoc, List.append_assoc]
    exact ⟨(), _, ⟨p, rfl⟩, header.start, table', _,
      passesQuietly_forStart.2 ⟨i, rfl, hi, hfollows⟩, header.condition, _,
      reads_forCondition.2 ⟨c, rfl, hc, hin⟩, header.increment, _,
      passesQuietly_forIncrement.2 ⟨n, rfl, hn, hincrement⟩, (), _, ⟨q, rfl⟩, (), rest, ⟨r, rfl⟩,
      rfl, rfl⟩

/-! ## Simple statements -/

theorem not_quiet_leaveOut {n : Notice} {s : Option Stmt} (hn : n.Complains) :
    ¬ PassesQuietly (leaveOut table n ts) (s, table') rest := by
  rintro ⟨h, hquiet⟩
  exact Logged.not_quiet_complaint hn hquiet

theorem passes_target_name {n : String} {place : Target} (hts : symbol ts ≠ .punct .openBracket) :
    Passes (target table n ts) place rest ↔ place = .name n ∧ rest = ts := by
  rw [target, accept_eq_none hts]
  exact passes_ok

theorem passes_target_element {n : String} {q : Position} {place : Target} :
    Passes (target table n (⟨.punct .openBracket, q⟩ :: ts)) place rest ↔
      ∃ i text, place = .element n i text ∧ Reads (index table n q.line ts) (i, text) rest := by
  rw [target, accept_punct]
  simp only [passes_bind, Read.exists, Prod.exists, passes_pure, exists_and_right, exists_reads]
  constructor
  · rintro ⟨i, text, mid, hread, rfl, rfl⟩
    exact ⟨i, text, rfl, hread⟩
  · rintro ⟨i, text, rfl, hread⟩
    exact ⟨i, text, rest, hread, rfl, rfl⟩

theorem passesQuietly_assignment_iff {n : String} {p : Position} {s : Option Stmt} :
    PassesQuietly (assignment table n p ts) (s, table') rest ↔
      ∃ place q us e r, Passes (target table n ts) place (⟨.operator "=", q⟩ :: us) ∧
        Reads (value table us) e (⟨.punct .semicolon, r⟩ :: rest) ∧
        s = some (.assign ⟨place, e, p⟩) ∧ table' = table := by
  rw [assignment]
  constructor
  · intro hpass
    simp only [passesQuietly_bind, Logged.quiet_lift, Pass.exists] at hpass
    obtain ⟨place, mid, h, hplace, hrest⟩ := hpass
    rcases accept_cases (s := .operator "=") (by simp) mid with ⟨q, us, h', rfl, hacc⟩ | ⟨-, hacc⟩
    · rw [hacc] at hrest
      simp only [passesQuietly_bind, Logged.quiet_lift, Read.exists, passesQuietly_pure,
        exists_and_right, exists_reads, reads_expect, Prod.mk.injEq] at hrest
      obtain ⟨e, mid, hread, u, mid', ⟨r, rfl⟩, ⟨rfl, rfl⟩, rfl⟩ := hrest
      exact ⟨place, q, us, e, r, ⟨h, hplace⟩, hread, rfl, rfl⟩
    · rw [hacc] at hrest
      simp only [passesQuietly_bind, Pass.exists, Prod.exists] at hrest
      obtain ⟨s', next, mid', h', hquiet, -⟩ := hrest
      exact absurd ⟨h', hquiet⟩ (not_quiet_leaveOut (.inl rfl))
  · rintro ⟨place, q, us, e, r, ⟨h, hplace⟩, hread, rfl, rfl⟩
    simp only [passesQuietly_bind, Logged.quiet_lift, Pass.exists]
    refine ⟨place, _, h, hplace, ?_⟩
    rw [accept_operator]
    simp only [passesQuietly_bind, Logged.quiet_lift, Read.exists, passesQuietly_pure,
      exists_and_right, exists_reads, reads_expect]
    exact ⟨e, _, hread, (), rest, ⟨r, rfl⟩, rfl, rfl⟩

/-- An assignment is read by its grammar, from after its name on. -/
theorem passesQuietly_assignment {n : String} {p : Position} {s : Option Stmt} :
    PassesQuietly (assignment table n p ts) (s, table') rest ↔
      ∃ a us q, s = some (.assign a) ∧ ts = us ++ ⟨.punct .semicolon, q⟩ :: rest ∧
        AssignmentForm (⟨.name n, p⟩ :: us) a ∧ table.Follows a.mentions table' := by
  rw [passesQuietly_assignment_iff]
  constructor
  · rintro ⟨place, q, us, e, r, hplace, hread, rfl, rfl⟩
    obtain ⟨taken, rfl, hat, hin⟩ := (reads_value_before .semicolon (by simp) (by simp)).1 hread
    have hvalue : table'.Follows e.mentions table' := ShapeTable.follows_mentions.2 ⟨hin, rfl⟩
    rcases accept_cases (s := .punct .openBracket) (by simp) ts with ⟨o, vs, -, rfl, -⟩ | ⟨hne, -⟩
    · obtain ⟨i, text, rfl, hindex⟩ := passes_target_element.1 hplace
      obtain ⟨ks, s, rfl, hi, rfl, hbound⟩ := reads_index_iff.1 hindex
      refine ⟨_, ⟨.punct .openBracket, o⟩ :: (ks ++ ⟨.punct .closeBracket, s⟩ ::
        ⟨.operator "=", q⟩ :: taken), r, rfl, ?_, .element hi hat, ?_⟩
      · simp only [List.cons_append, List.append_assoc]
      · exact ShapeTable.follows_append.2
          ⟨table', ShapeTable.follows_mentions.2 ⟨hbound, rfl⟩, hvalue⟩
    · obtain ⟨rfl, rfl⟩ := (passes_target_name hne).1 hplace
      exact ⟨_, ⟨.operator "=", q⟩ :: taken, r, rfl, rfl, .name hat, hvalue⟩
  · rintro ⟨a, us, q, rfl, rfl, hform, hfollows⟩
    have hsame := hfollows.eq_of_assignment
    subst hsame
    obtain ⟨mid, hplace, hvalue⟩ := ShapeTable.follows_append.1 hfollows
    obtain ⟨hin, rfl⟩ := ShapeTable.follows_mentions.1 hvalue
    cases hform with
    | @name _ us e _ o hat =>
      rw [List.cons_append]
      exact ⟨.name n, o, _, e, q, (passes_target_name (by simp)).2 ⟨rfl, rfl⟩,
        (reads_value_before .semicolon (by simp) (by simp)).2 ⟨us, rfl, hat, hin⟩, rfl, rfl⟩
    | @element _ ks us i e _ o r s hi hat =>
      obtain ⟨hbound, -⟩ := ShapeTable.follows_mentions.1 hplace
      rw [List.cons_append, List.append_assoc, List.cons_append, List.cons_append]
      exact ⟨.element n i (spelled ks), s, _, e, q,
        passes_target_element.2 ⟨i, _, rfl, reads_index_iff.2 ⟨ks, r, rfl, hi, rfl, hbound⟩⟩,
        (reads_value_before .semicolon (by simp) (by simp)).2 ⟨us, rfl, hat, hin⟩, rfl, rfl⟩

theorem reads_returned {p : Position} {s : Stmt} :
    Reads (returned table p ts) s rest ↔
      ∃ us value q, s = .ret value p ∧ ts = us ++ ⟨.punct .semicolon, q⟩ :: rest ∧
        ReturnedForm us value ∧ table.Follows ((value.map Expr.mentions).getD []) table := by
  constructor
  · intro hread
    rw [returned] at hread
    rcases accept_cases (s := .punct .semicolon) (by simp) ts with ⟨q, us, h, rfl, hacc⟩ | ⟨-, hacc⟩
    · rw [hacc] at hread
      obtain ⟨rfl, rfl⟩ := reads_ok.1 hread
      exact ⟨[], none, q, rfl, rfl, .nothing, rfl⟩
    · rw [hacc] at hread
      simp only [reads_bind, Read.exists, reads_pure, exists_and_right, exists_reads,
        reads_expect] at hread
      obtain ⟨e, mid, hread, u, mid', ⟨q, rfl⟩, rfl, rfl⟩ := hread
      obtain ⟨taken, rfl, hat, hin⟩ := (reads_value_before .semicolon (by simp) (by simp)).1 hread
      exact ⟨taken, some e, q, rfl, rfl, .value hat, ShapeTable.follows_mentions.2 ⟨hin, rfl⟩⟩
  · rintro ⟨us, value, q, rfl, rfl, hform, hfollows⟩
    cases hform with
    | nothing =>
      rw [List.nil_append, returned, accept_punct]
      exact reads_ok.2 ⟨rfl, rfl⟩
    | @value _ e hat =>
      obtain ⟨hin, -⟩ := ShapeTable.follows_mentions.1 hfollows
      rw [returned, accept_eq_none (hat.symbol_append_ne .semicolon (by simp) _)]
      simp only [reads_bind, Read.exists, reads_pure, exists_and_right, exists_reads,
        reads_expect]
      exact ⟨e, _, (reads_value_before .semicolon (by simp) (by simp)).2 ⟨us, rfl, hat, hin⟩, (),
        rest, ⟨q, rfl⟩, rfl, rfl⟩

theorem reads_jump {inLoop : Bool} {j : Jump} {p : Position} {s : Stmt} :
    Reads (jump inLoop j p ts) s rest ↔
      inLoop = true ∧ s = .jump j p ∧ ∃ q, ts = ⟨.punct .semicolon, q⟩ :: rest := by
  rw [jump]
  cases inLoop with
  | false =>
    refine ⟨fun h => absurd h not_reads_error, ?_⟩
    rintro ⟨h, -⟩
    cases h
  | true =>
    rw [if_pos rfl]
    simp only [reads_bind, Read.exists, reads_pure, exists_and_right, exists_reads, reads_expect]
    constructor
    · rintro ⟨u, mid, ⟨q, rfl⟩, rfl, rfl⟩
      exact ⟨trivial, rfl, q, rfl⟩
    · rintro ⟨-, rfl, q, rfl⟩
      exact ⟨(), rest, ⟨q, rfl⟩, rfl, rfl⟩

theorem reads_condition {before after : Place} {e : Expr} :
    Reads (condition before after table ts) e rest ↔
      ∃ c, ExprAt BinaryOp.loosest c e ∧ e.InBounds table ∧
        ∃ p q r, ts = parenthesized p c q ++ ⟨.punct .openBrace, r⟩ :: rest := by
  rw [condition]
  simp only [reads_bind, Read.exists, reads_pure, exists_and_right, exists_reads, reads_expect,
    parenthesized_append]
  constructor
  · rintro ⟨u, mid, ⟨p, rfl⟩, e', mid₁, hread, u', mid₂, ⟨q, rfl⟩, u'', mid₃, ⟨r, rfl⟩, rfl, rfl⟩
    obtain ⟨c, rfl, hat, hin⟩ := (reads_value_before .closeParen (by simp) (by simp)).1 hread
    exact ⟨c, hat, hin, p, q, r, rfl⟩
  · rintro ⟨c, hat, hin, p, q, r, rfl⟩
    exact ⟨(), _, ⟨p, rfl⟩, e, _, (reads_value_before .closeParen (by simp) (by simp)).2
      ⟨c, rfl, hat, hin⟩, (), _, ⟨q, rfl⟩, (), rest, ⟨r, rfl⟩, rfl, rfl⟩

/-! ## Compound statements one step at a time -/

section Steps

variable {place : Place} {inLoop : Bool} {depth : Nat} {ss : Block} {s : Option Stmt}

theorem readsQuietly_block_last {p : Position} :
    ReadsQuietly (block place inLoop 0 table (⟨.punct .closeBrace, p⟩ :: ts)) (ss, table') rest ↔
      ss = [] ∧ table' = table ∧ rest = ts := by
  rw [block, next?_cons (t := ⟨.punct .closeBrace, p⟩) (by simp)]
  dsimp only
  rw [readsQuietly_pure, Prod.mk.injEq, and_assoc]

theorem readsQuietly_block_close {p : Position} :
    ReadsQuietly (block place inLoop (depth + 1) table (⟨.punct .closeBrace, p⟩ :: ts))
      (ss, table') rest ↔
      ReadsQuietly (block place inLoop depth table ts) (ss, table') rest := by
  rw [block, next?_cons (t := ⟨.punct .closeBrace, p⟩) (by simp)]
  simp only [readsQuietly_bind, Read.exists, readsQuietly_pure, exists_and_right,
    exists_readsQuietly]
  constructor
  · rintro ⟨answer, mid, hread, rfl, rfl⟩
    exact hread
  · intro hread
    exact ⟨_, _, hread, rfl, rfl⟩

theorem readsQuietly_block_open {p : Position} :
    ReadsQuietly (block place inLoop depth table (⟨.punct .openBrace, p⟩ :: ts)) (ss, table')
      rest ↔
      ReadsQuietly (block place inLoop (depth + 1) table ts) (ss, table') rest := by
  rw [block, next?_cons (t := ⟨.punct .openBrace, p⟩) (by simp)]
  simp only [readsQuietly_bind, Read.exists, readsQuietly_pure, exists_and_right,
    exists_readsQuietly]
  constructor
  · rintro ⟨answer, mid, hread, rfl, rfl⟩
    exact hread
  · intro hread
    exact ⟨_, _, hread, rfl, rfl⟩

theorem readsQuietly_block_stmt {t : Token} (heof : t.symbol ≠ .eof)
    (hopen : t.symbol ≠ .punct .openBrace) (hclose : t.symbol ≠ .punct .closeBrace) :
    ReadsQuietly (block place inLoop depth table (t :: ts)) (ss, table') rest ↔
      ∃ s next mid ss', PassesQuietly (statement inLoop table t ts) (s, next) mid ∧
        ReadsQuietly (block place inLoop depth next mid) (ss', table') rest ∧
        ss = s.toList ++ ss' := by
  rw [block, next?_cons heof]
  dsimp only
  split
  · next h => exact absurd h hclose
  · next h => exact absurd h hclose
  · next h => exact absurd h hopen
  · simp only [readsQuietly_bind, Read.exists, Pass.exists, Prod.exists, readsQuietly_pure,
      exists_and_right, exists_readsQuietly, exists_passesQuietly, Prod.mk.injEq]
    constructor
    · rintro ⟨s, next, mid, hstmt, ss', last, mid', hblock, ⟨rfl, rfl⟩, rfl⟩
      exact ⟨s, next, mid, ss', hstmt, hblock, rfl⟩
    · rintro ⟨s, next, mid, ss', hstmt, hblock, rfl⟩
      exact ⟨s, next, mid, hstmt, ss', table', rest, hblock, ⟨rfl, rfl⟩, rfl⟩

theorem not_readsQuietly_block_eof (heof : symbol ts = .eof) :
    ¬ ReadsQuietly (block place inLoop depth table ts) (ss, table') rest := by
  rw [block, next?_eq_none heof]
  rintro ⟨h, hquiet⟩
  exact Logged.not_quiet_fail hquiet

theorem passesQuietly_statement_declare {type : ScalarType} {p : Position}
    (htype : type ≠ .void) :
    PassesQuietly (statement inLoop table ⟨.keyword (.type type), p⟩ ts) (s, table') rest ↔
      ∃ d, s = some (.declare d) ∧ Reads (declaration table type p ts) (d, table') rest := by
  cases type with
  | void => exact absurd rfl htype
  | int | float | char | double =>
    rw [statement]
    simp only [passesQuietly_bind, Logged.quiet_lift, Read.exists, Prod.exists,
      passesQuietly_pure, exists_and_right, exists_reads, Prod.mk.injEq]
    constructor
    · rintro ⟨d, next, mid, hread, ⟨rfl, rfl⟩, rfl⟩
      exact ⟨d, rfl, hread⟩
    · rintro ⟨d, rfl, hread⟩
      exact ⟨d, table', rest, hread, ⟨rfl, rfl⟩, rfl⟩

theorem passesQuietly_statement_ret {p : Position} :
    PassesQuietly (statement inLoop table ⟨.keyword .returnKw, p⟩ ts) (s, table') rest ↔
      ∃ s', s = some s' ∧ table' = table ∧ Reads (returned table p ts) s' rest := by
  rw [statement]
  simp only [passesQuietly_bind, Logged.quiet_lift, Read.exists, passesQuietly_pure,
    exists_and_right, exists_reads, Prod.mk.injEq]
  constructor
  · rintro ⟨s', mid, hread, ⟨rfl, rfl⟩, rfl⟩
    exact ⟨s', rfl, rfl, hread⟩
  · rintro ⟨s', rfl, rfl, hread⟩
    exact ⟨s', rest, hread, ⟨rfl, rfl⟩, rfl⟩

theorem passesQuietly_statement_jump {j : Jump} {p : Position} :
    PassesQuietly (statement inLoop table ⟨.keyword (.jump j), p⟩ ts) (s, table') rest ↔
      ∃ s', s = some s' ∧ table' = table ∧ Reads (jump inLoop j p ts) s' rest := by
  rw [statement]
  simp only [passesQuietly_bind, Logged.quiet_lift, Read.exists, passesQuietly_pure,
    exists_and_right, exists_reads, Prod.mk.injEq]
  constructor
  · rintro ⟨s', mid, hread, ⟨rfl, rfl⟩, rfl⟩
    exact ⟨s', rfl, rfl, hread⟩
  · rintro ⟨s', rfl, rfl, hread⟩
    exact ⟨s', rest, hread, ⟨rfl, rfl⟩, rfl⟩

theorem passesQuietly_statement_if {p : Position} :
    PassesQuietly (statement inLoop table ⟨.keyword .ifKw, p⟩ ts) (s, table') rest ↔
      ∃ e mid body next mid' otherwise, s = some (.branch e body otherwise p) ∧
        Reads (condition .afterIf .afterIfCondition table ts) e mid ∧
        ReadsQuietly (block .afterIfBlock inLoop 0 table mid) (body, next) mid' ∧
        PassesQuietly (alternative inLoop next mid') (otherwise, table') rest := by
  rw [statement]
  simp only [passesQuietly_bind, Logged.quiet_lift, Read.exists, Pass.exists, Prod.exists,
    passesQuietly_pure, exists_and_right, exists_reads, exists_readsQuietly,
    exists_passesQuietly, Prod.mk.injEq]
  constructor
  · rintro ⟨e, mid, he, body, next, mid', hbody, otherwise, last, mid'', halt, ⟨rfl, rfl⟩, rfl⟩
    exact ⟨e, mid, body, next, mid', otherwise, rfl, he, hbody, halt⟩
  · rintro ⟨e, mid, body, next, mid', otherwise, rfl, he, hbody, halt⟩
    exact ⟨e, mid, he, body, next, mid', hbody, otherwise, table', rest, halt, ⟨rfl, rfl⟩, rfl⟩

theorem passesQuietly_statement_while {p : Position} :
    PassesQuietly (statement inLoop table ⟨.keyword .whileKw, p⟩ ts) (s, table') rest ↔
      ∃ e mid body, s = some (.whileLoop e body p) ∧
        Reads (condition .afterWhile .afterWhileCondition table ts) e mid ∧
        ReadsQuietly (block .afterWhileBlock true 0 table mid) (body, table') rest := by
  rw [statement]
  simp only [passesQuietly_bind, Logged.quiet_lift, Read.exists, Prod.exists,
    passesQuietly_pure, exists_and_right, exists_reads, exists_readsQuietly, Prod.mk.injEq]
  constructor
  · rintro ⟨e, mid, he, body, next, mid', hbody, ⟨rfl, rfl⟩, rfl⟩
    exact ⟨e, mid, body, rfl, he, hbody⟩
  · rintro ⟨e, mid, body, rfl, he, hbody⟩
    exact ⟨e, mid, he, body, table', rest, hbody, ⟨rfl, rfl⟩, rfl⟩

theorem passesQuietly_statement_for {p : Position} :
    PassesQuietly (statement inLoop table ⟨.keyword .forKw, p⟩ ts) (s, table') rest ↔
      ∃ header next mid body,
        s = some (.forLoop header.start header.condition body header.increment p) ∧
        ReadsQuietly (forHeader table ts) (header, next) mid ∧
        ReadsQuietly (block .afterForBody true 0 next mid) (body, table') rest := by
  rw [statement]
  simp only [passesQuietly_bind, Read.exists, Prod.exists, passesQuietly_pure, exists_and_right,
    exists_readsQuietly, Prod.mk.injEq]
  constructor
  · rintro ⟨header, next, mid, hheader, body, last, mid', hbody, ⟨rfl, rfl⟩, rfl⟩
    exact ⟨header, next, mid, body, rfl, hheader, hbody⟩
  · rintro ⟨header, next, mid, body, rfl, hheader, hbody⟩
    exact ⟨header, next, mid, hheader, body, table', rest, hbody, ⟨rfl, rfl⟩, rfl⟩

/-- Nothing else is taken for a statement without a complaint. -/
theorem statement_cases {t : Token}
    (h : PassesQuietly (statement inLoop table t ts) (s, table') rest) :
    (∃ type p, type ≠ .void ∧ t = ⟨.keyword (.type type), p⟩) ∨ (∃ n p, t = ⟨.name n, p⟩) ∨
    (∃ j p, t = ⟨.keyword (.jump j), p⟩) ∨ (∃ p, t = ⟨.keyword .returnKw, p⟩) ∨
    (∃ p, t = ⟨.keyword .ifKw, p⟩) ∨ (∃ p, t = ⟨.keyword .whileKw, p⟩) ∨
    ∃ p, t = ⟨.keyword .forKw, p⟩ := by
  obtain ⟨symbol, p⟩ := t
  match symbol with
  | .keyword (.type type) =>
    by_cases htype : type = .void
    · subst htype
      rw [statement] at h
      exact absurd h (not_quiet_leaveOut (.inl rfl))
    · exact .inl ⟨type, p, htype, rfl⟩
  | .name n => exact .inr (.inl ⟨n, p, rfl⟩)
  | .keyword (.jump j) => exact .inr (.inr (.inl ⟨j, p, rfl⟩))
  | .keyword .returnKw => exact .inr (.inr (.inr (.inl ⟨p, rfl⟩)))
  | .keyword .ifKw => exact .inr (.inr (.inr (.inr (.inl ⟨p, rfl⟩))))
  | .keyword .whileKw => exact .inr (.inr (.inr (.inr (.inr (.inl ⟨p, rfl⟩)))))
  | .keyword .forKw => exact .inr (.inr (.inr (.inr (.inr (.inr ⟨p, rfl⟩)))))
  | .punct .semicolon =>
    rw [statement] at h
    obtain ⟨_, hquiet⟩ := h
    exact absurd hquiet (Logged.not_quiet_complaint (.inl rfl))
  | .keyword .elseKw | .number _ | .character _ | .string _ | .operator _ | .eof
  | .punct .openParen | .punct .closeParen | .punct .openBrace | .punct .closeBrace
  | .punct .openBracket | .punct .closeBracket | .punct .comma =>
    rw [statement] at h
    exact absurd h (not_quiet_leaveOut (.inl rfl))

theorem passesQuietly_alternative_none (hts : symbol ts ≠ .keyword .elseKw)
    {otherwise : Alternative} :
    PassesQuietly (alternative inLoop table ts) (otherwise, table') rest ↔
      otherwise = .none ∧ table' = table ∧ rest = ts := by
  rw [alternative, accept_eq_none hts]
  dsimp only
  refine passesQuietly_pure.trans ?_
  rw [Prod.mk.injEq, and_assoc]

theorem passesQuietly_alternative_body {p : Position} (hts : symbol ts ≠ .keyword .ifKw)
    {otherwise : Alternative} :
    PassesQuietly (alternative inLoop table (⟨.keyword .elseKw, p⟩ :: ts)) (otherwise, table')
      rest ↔
      ∃ q us body, ts = ⟨.punct .openBrace, q⟩ :: us ∧ otherwise = .body body ∧
        ReadsQuietly (block .afterElseBlock inLoop 0 table us) (body, table') rest := by
  rw [alternative, accept_keyword]
  dsimp only
  rw [accept_eq_none hts]
  simp only [passesQuietly_bind, Logged.quiet_lift, Read.exists, Prod.exists,
    passesQuietly_pure, exists_and_right, exists_reads, exists_readsQuietly, reads_expect,
    Prod.mk.injEq]
  constructor
  · rintro ⟨u, us, ⟨q, rfl⟩, body, next, mid', hbody, ⟨rfl, rfl⟩, rfl⟩
    exact ⟨q, us, body, rfl, rfl, hbody⟩
  · rintro ⟨q, us, body, rfl, rfl, hbody⟩
    exact ⟨(), us, ⟨q, rfl⟩, body, table', rest, hbody, ⟨rfl, rfl⟩, rfl⟩

theorem passesQuietly_alternative_branch {p q : Position} {otherwise : Alternative} :
    PassesQuietly (alternative inLoop table (⟨.keyword .elseKw, p⟩ :: ⟨.keyword .ifKw, q⟩ :: ts))
      (otherwise, table') rest ↔
      ∃ e mid body next mid' others, otherwise = .branch e body others p ∧
        Reads (condition .afterElseIf .afterElseIfCondition table ts) e mid ∧
        ReadsQuietly (block .afterElseIfBlock inLoop 0 table mid) (body, next) mid' ∧
        PassesQuietly (alternative inLoop next mid') (others, table') rest := by
  rw [alternative, accept_keyword]
  dsimp only
  rw [accept_keyword]
  simp only [passesQuietly_bind, Logged.quiet_lift, Read.exists, Pass.exists, Prod.exists,
    passesQuietly_pure, exists_and_right, exists_reads, exists_readsQuietly,
    exists_passesQuietly, Prod.mk.injEq]
  constructor
  · rintro ⟨e, mid, he, body, next, mid', hbody, others, last, mid'', halt, ⟨rfl, rfl⟩, rfl⟩
    exact ⟨e, mid, body, next, mid', others, rfl, he, hbody, halt⟩
  · rintro ⟨e, mid, body, next, mid', others, rfl, he, hbody, halt⟩
    exact ⟨e, mid, he, body, next, mid', hbody, others, table', rest, halt, ⟨rfl, rfl⟩, rfl⟩

end Steps

/-! ## What is read is derived -/

/-- Jumps have to stand in a loop where a body outside of all loops is read. -/
def JumpsFit (inLoop stray : Bool) : Prop :=
  inLoop = false → stray = false

theorem jumpsFit_or {inLoop a b : Bool} :
    JumpsFit inLoop (a || b) ↔ JumpsFit inLoop a ∧ JumpsFit inLoop b := by
  cases inLoop <;> simp [JumpsFit]

theorem jumpsFit_inLoop (stray : Bool) : JumpsFit true stray :=
  fun h => Bool.noConfusion h

/-- What is read from these tokens as the rest of a body is derived. -/
def BlockSound (ts : List Token) : Prop :=
  ∀ ⦃place : Place⦄ ⦃inLoop : Bool⦄ ⦃depth : Nat⦄ ⦃table table' : ShapeTable⦄ ⦃rest : List Token⦄
    ⦃ss : Block⦄, ReadsQuietly (block place inLoop depth table ts) (ss, table') rest →
    ∃ taken, ts = taken ++ rest ∧ Closes depth taken ss ∧
      table.Follows (Block.mentions ss) table' ∧ JumpsFit inLoop (Block.hasStrayJump ss)

/-- The same for a statement, whose first token has been taken. -/
def StatementSound (ts : List Token) : Prop :=
  ∀ ⦃inLoop : Bool⦄ ⦃table table' : ShapeTable⦄ ⦃t : Token⦄ ⦃rest : List Token⦄ ⦃s : Option Stmt⦄,
    PassesQuietly (statement inLoop table t ts) (s, table') rest →
    ∃ stmt taken, s = some stmt ∧ ts = taken ++ rest ∧ StmtForm (t :: taken) stmt ∧
      table.Follows stmt.mentions table' ∧ JumpsFit inLoop stmt.hasStrayJump

/-- The same for an alternative. -/
def AlternativeSound (ts : List Token) : Prop :=
  ∀ ⦃inLoop : Bool⦄ ⦃table table' : ShapeTable⦄ ⦃rest : List Token⦄ ⦃otherwise : Alternative⦄,
    PassesQuietly (alternative inLoop table ts) (otherwise, table') rest →
    ∃ taken, ts = taken ++ rest ∧ AlternativeForm taken otherwise ∧
      table.Follows otherwise.mentions table' ∧ JumpsFit inLoop otherwise.hasStrayJump

section Soundness

variable {ts : List Token} (hblock : ∀ us : List Token, us.length < ts.length → BlockSound us)
include hblock

theorem blockSound_of_shorter
    (hstatement : ∀ us : List Token, us.length < ts.length → StatementSound us) :
    BlockSound ts := by
  intro place inLoop depth table table' rest ss h
  rcases next?_cases ts with ⟨s, p, us, _, rfl, hnext⟩ | ⟨heof, -⟩
  · have hus : us.length < (⟨s, p⟩ :: us : List Token).length := Nat.lt_succ_self _
    by_cases hclose : s = .punct .closeBrace
    · subst hclose
      cases depth with
      | zero =>
        obtain ⟨rfl, rfl, rfl⟩ := readsQuietly_block_last.1 h
        exact ⟨[_], rfl, @Closes.last [] [] p .nil, rfl, fun _ => rfl⟩
      | succ depth =>
        obtain ⟨taken, rfl, hcloses, hfollows, hjumps⟩ :=
          hblock us hus (readsQuietly_block_close.1 h)
        exact ⟨_ :: taken, rfl, @Closes.more _ [] _ [] _ p .nil hcloses, hfollows, hjumps⟩
    by_cases hopen : s = .punct .openBrace
    · subst hopen
      obtain ⟨taken, rfl, hcloses, hfollows, hjumps⟩ :=
        hblock us hus (readsQuietly_block_open.1 h)
      cases hcloses with
      | @more _ inner outer ss ss' q hinner houter =>
        refine ⟨braced p inner q ++ outer, ?_, houter.braces p q hinner, hfollows, hjumps⟩
        rw [braced_append, List.cons_append]
    have heof : s ≠ .eof := by
      rintro rfl
      rw [next?_eq_none rfl] at hnext
      cases hnext
    obtain ⟨found, next, mid, ss', hstmt, hrest, rfl⟩ :=
      (readsQuietly_block_stmt heof hopen hclose).1 h
    obtain ⟨stmt, taken, rfl, rfl, hform, hfollows, hjumps⟩ := hstatement us hus hstmt
    have hmid : mid.length < (⟨s, p⟩ :: (taken ++ mid) : List Token).length := by
      simp only [List.length_append, List.length_cons]
      omega
    obtain ⟨taken', rfl, hcloses, hfollows', hjumps'⟩ := hblock mid hmid hrest
    refine ⟨_ :: taken ++ taken', ?_, hcloses.stmt hform, ?_, ?_⟩
    · rw [List.cons_append, List.cons_append, List.append_assoc]
    · exact ShapeTable.follows_append.2 ⟨next, hfollows, hfollows'⟩
    · exact jumpsFit_or.2 ⟨hjumps, hjumps'⟩
  · exact absurd h (not_readsQuietly_block_eof heof)

theorem statementSound_of_shorter
    (halternative : ∀ us : List Token, us.length < ts.length → AlternativeSound us) :
    StatementSound ts := by
  intro inLoop table table' t rest s h
  rcases statement_cases h with ⟨type, p, htype, rfl⟩ | ⟨n, p, rfl⟩ | ⟨j, p, rfl⟩ | ⟨p, rfl⟩ |
    ⟨p, rfl⟩ | ⟨p, rfl⟩ | ⟨p, rfl⟩
  · obtain ⟨d, rfl, hread⟩ := (passesQuietly_statement_declare htype).1 h
    obtain ⟨taken, rfl, hform, hfollows⟩ := (reads_declaration htype).1 hread
    exact ⟨_, taken, rfl, rfl, .declare hform, hfollows, fun _ => rfl⟩
  · rw [statement] at h
    obtain ⟨a, us, q, rfl, rfl, hform, hfollows⟩ := passesQuietly_assignment.1 h
    have hstmt : StmtForm (⟨.name n, p⟩ :: (us ++ [⟨.punct .semicolon, q⟩])) (.assign a) :=
      @StmtForm.assign (⟨.name n, p⟩ :: us) a q hform
    refine ⟨_, us ++ [⟨.punct .semicolon, q⟩], rfl, ?_, hstmt, hfollows, fun _ => rfl⟩
    rw [List.append_assoc, List.singleton_append]
  · obtain ⟨stmt, rfl, rfl, hread⟩ := passesQuietly_statement_jump.1 h
    obtain ⟨rfl, rfl, q, rfl⟩ := reads_jump.1 hread
    exact ⟨_, [_], rfl, rfl, .jump, rfl, jumpsFit_inLoop _⟩
  · obtain ⟨stmt, rfl, rfl, hread⟩ := passesQuietly_statement_ret.1 h
    obtain ⟨us, value, q, rfl, rfl, hform, hfollows⟩ := reads_returned.1 hread
    refine ⟨_, us ++ [⟨.punct .semicolon, q⟩], rfl, ?_, .ret hform, hfollows, fun _ => rfl⟩
    rw [List.append_assoc, List.singleton_append]
  · obtain ⟨e, mid, body, next, mid', otherwise, rfl, he, hbody, halt⟩ :=
      passesQuietly_statement_if.1 h
    have hmid := he.length_lt
    obtain ⟨c, hc, hin, q, r, o, rfl⟩ := reads_condition.1 he
    obtain ⟨taken, rfl, hcloses, hfollows, hjumps⟩ := hblock mid hmid hbody
    have hmid' : mid'.length ≤ (taken ++ mid').length := by
      rw [List.length_append]
      omega
    obtain ⟨a, rfl, ha, hfollows', hjumps'⟩ := halternative mid' (by omega) halt
    cases hcloses with
    | @last b _ u hb =>
      refine ⟨_, parenthesized q c r ++ (braced o b u ++ a), rfl, ?_, .branch hc hb ha, ?_, ?_⟩
      · simp only [List.append_assoc, List.cons_append, List.nil_append, braced_append]
      · exact ShapeTable.follows_append.2 ⟨table, ShapeTable.follows_mentions.2 ⟨hin, rfl⟩,
          ShapeTable.follows_append.2 ⟨next, hfollows, hfollows'⟩⟩
      · exact jumpsFit_or.2 ⟨hjumps, hjumps'⟩
  · obtain ⟨e, mid, body, rfl, he, hbody⟩ := passesQuietly_statement_while.1 h
    have hmid := he.length_lt
    obtain ⟨c, hc, hin, q, r, o, rfl⟩ := reads_condition.1 he
    obtain ⟨_, rfl, hcloses, hfollows, -⟩ := hblock mid hmid hbody
    cases hcloses with
    | @last b _ u hb =>
      refine ⟨_, parenthesized q c r ++ braced o b u, rfl, ?_, .whileLoop hc hb, ?_, fun _ => rfl⟩
      · simp only [List.append_assoc, braced_append, List.singleton_append]
      · exact ShapeTable.follows_append.2
          ⟨table, ShapeTable.follows_mentions.2 ⟨hin, rfl⟩, hfollows⟩
  · obtain ⟨header, next, mid, body, rfl, hheader, hbody⟩ := passesQuietly_statement_for.1 h
    obtain ⟨i, c, n, hi, hc, hn, hfollows, q, r, o, rfl⟩ := readsQuietly_forHeader.1 hheader
    have hmid : mid.length <
        (parenthesized q (i ++ (c ++ n)) r ++ ⟨.punct .openBrace, o⟩ :: mid).length := by
      simp only [List.length_append, List.length_cons]
      omega
    obtain ⟨_, rfl, hcloses, hfollows', -⟩ := hblock mid hmid hbody
    cases hcloses with
    | @last b _ u hb =>
      refine ⟨_, parenthesized q (i ++ (c ++ n)) r ++ braced o b u, rfl, ?_,
        .forLoop hi hc hn hb, ?_, fun _ => rfl⟩
      · simp only [List.append_assoc, braced_append, List.singleton_append]
      · have hall := ShapeTable.follows_append.2 ⟨next, hfollows, hfollows'⟩
        simpa only [ForHeader.mentions, List.append_assoc, Stmt.mentions] using hall

theorem alternativeSound_of_shorter
    (halternative : ∀ us : List Token, us.length < ts.length → AlternativeSound us) :
    AlternativeSound ts := by
  intro inLoop table table' rest otherwise h
  rcases accept_cases (s := .keyword .elseKw) (by simp) ts with ⟨p, us, -, rfl, -⟩ | ⟨hne, -⟩
  · rcases accept_cases (s := .keyword .ifKw) (by simp) us with ⟨q, us, -, rfl, -⟩ | ⟨hne, -⟩
    · obtain ⟨e, mid, body, next, mid', others, rfl, he, hbody, halt⟩ :=
        passesQuietly_alternative_branch.1 h
      have hmid := he.length_lt
      obtain ⟨c, hc, hin, r, s, o, rfl⟩ := reads_condition.1 he
      simp only [List.length_cons] at hblock halternative
      obtain ⟨taken, rfl, hcloses, hfollows, hjumps⟩ := hblock mid (by omega) hbody
      have hmid' : mid'.length ≤ (taken ++ mid').length := by
        rw [List.length_append]
        omega
      obtain ⟨a, rfl, ha, hfollows', hjumps'⟩ := halternative mid' (by omega) halt
      cases hcloses with
      | @last b _ u hb =>
        refine ⟨⟨.keyword .elseKw, p⟩ :: ⟨.keyword .ifKw, q⟩ ::
          (parenthesized r c s ++ (braced o b u ++ a)), ?_, .branch hc hb ha, ?_, ?_⟩
        · simp only [List.append_assoc, List.cons_append, List.nil_append, braced_append]
        · exact ShapeTable.follows_append.2 ⟨table, ShapeTable.follows_mentions.2 ⟨hin, rfl⟩,
            ShapeTable.follows_append.2 ⟨next, hfollows, hfollows'⟩⟩
        · exact jumpsFit_or.2 ⟨hjumps, hjumps'⟩
    · obtain ⟨q, us, body, rfl, rfl, hbody⟩ := (passesQuietly_alternative_body hne).1 h
      simp only [List.length_cons] at hblock
      obtain ⟨_, rfl, hcloses, hfollows, hjumps⟩ := hblock us (by omega) hbody
      cases hcloses with
      | @last b _ u hb =>
        refine ⟨⟨.keyword .elseKw, p⟩ :: braced q b u, ?_, .body hb, hfollows, hjumps⟩
        simp only [List.append_assoc, List.cons_append, List.nil_append, braced_append]
  · obtain ⟨rfl, rfl, rfl⟩ := (passesQuietly_alternative_none hne).1 h
    exact ⟨[], rfl, .none, rfl, fun _ => rfl⟩

end Soundness

/-- Whatever is read is derived, by induction on the number of tokens. -/
theorem sound_of_length (n : Nat) :
    ∀ ts : List Token, ts.length < n → BlockSound ts ∧ StatementSound ts ∧ AlternativeSound ts := by
  induction n with
  | zero =>
    intro ts hts
    exact absurd hts (Nat.not_lt_zero _)
  | succ n ih =>
    intro ts hts
    have shorter : ∀ us : List Token, us.length < ts.length → us.length < n := by
      intro us hus
      omega
    have hblock := fun us hus => (ih us (shorter us hus)).1
    have hstatement := fun us hus => (ih us (shorter us hus)).2.1
    have halternative := fun us hus => (ih us (shorter us hus)).2.2
    exact ⟨blockSound_of_shorter hblock hstatement, statementSound_of_shorter hblock halternative,
      alternativeSound_of_shorter hblock halternative⟩

theorem block_sound (ts : List Token) : BlockSound ts :=
  (sound_of_length (ts.length + 1) ts (Nat.lt_succ_self _)).1

end Parse

/-! ## What is derived is read -/

section Completeness

open Cursor Parse

/-- A statement is read where the table goes along with it, and where no `else` follows that would
belong to it. -/
def StmtReads (ts : List Token) (s : Stmt) : Prop :=
  ∀ (inLoop : Bool) (table table' : ShapeTable) (t : Token) (us rest : List Token), ts = t :: us →
    symbol rest ≠ .keyword .elseKw → table.Follows s.mentions table' →
    JumpsFit inLoop s.hasStrayJump →
    PassesQuietly (statement inLoop table t (us ++ rest)) (some s, table') rest

/-- The same for an alternative. -/
def AlternativeReads (ts : List Token) (otherwise : Alternative) : Prop :=
  ∀ (inLoop : Bool) (table table' : ShapeTable) (rest : List Token),
    symbol rest ≠ .keyword .elseKw → table.Follows otherwise.mentions table' →
    JumpsFit inLoop otherwise.hasStrayJump →
    PassesQuietly (alternative inLoop table (ts ++ rest)) (otherwise, table') rest

/-- The statements of a body are read, at any depth of braces, before what is read after them. -/
def BlockReads (ts : List Token) (ss : Block) : Prop :=
  ∀ (place : Place) (inLoop : Bool) (depth : Nat) (table mid table' : ShapeTable) (ss' : Block)
    (rest rest' : List Token), symbol rest ≠ .keyword .elseKw →
    table.Follows (Block.mentions ss) mid → JumpsFit inLoop (Block.hasStrayJump ss) →
    ReadsQuietly (block place inLoop depth mid rest) (ss', table') rest' →
    ReadsQuietly (block place inLoop depth table (ts ++ rest)) (ss ++ ss', table') rest'

/-- A whole body is read up to the brace that closes it. -/
theorem BlockReads.body {ts : List Token} {ss : Block} (h : BlockReads ts ss) (place : Place)
    {inLoop : Bool} {table table' : ShapeTable} (p : Position) (rest : List Token)
    (hfollows : table.Follows (Block.mentions ss) table')
    (hjumps : JumpsFit inLoop (Block.hasStrayJump ss)) :
    ReadsQuietly (block place inLoop 0 table (ts ++ ⟨.punct .closeBrace, p⟩ :: rest)) (ss, table')
      rest := by
  have hlast : ReadsQuietly (block place inLoop 0 table' (⟨.punct .closeBrace, p⟩ :: rest))
      ([], table') rest := readsQuietly_block_last.2 ⟨rfl, rfl, rfl⟩
  have helse : symbol (⟨.punct .closeBrace, p⟩ :: rest) ≠ .keyword .elseKw := by simp
  have hread := h place inLoop 0 table table' table' [] _ rest helse hfollows hjumps hlast
  rwa [List.append_nil] at hread

namespace StmtReads

variable {b c : List Token} {e : Expr} {ss : Block} {p q r o u : Position}

theorem declare {ts : List Token} {d : Declaration} (h : DeclarationForm ts d) :
    StmtReads ts (.declare d) := by
  intro inLoop table table' t us rest heq hrest hfollows hjumps
  cases h with
  | mk htype hinit =>
    cases heq
    refine (passesQuietly_statement_declare htype).2 ⟨_, rfl, ?_⟩
    exact (reads_declaration htype).2 ⟨_, rfl, .mk htype hinit, hfollows⟩

theorem assign {ts : List Token} {a : Assignment} (h : AssignmentForm ts a) :
    StmtReads (ts ++ [⟨.punct .semicolon, p⟩]) (.assign a) := by
  intro inLoop table table' t us rest heq hrest hfollows hjumps
  obtain ⟨n, q, vs, rfl⟩ : ∃ n q vs, ts = ⟨.name n, q⟩ :: vs := by
    cases h
    all_goals exact ⟨_, _, _, rfl⟩
  rw [List.cons_append] at heq
  cases heq
  rw [List.append_assoc, List.singleton_append, statement]
  exact passesQuietly_assignment.2 ⟨a, vs, p, rfl, rfl, h, hfollows⟩

theorem ret {ts : List Token} {value : Option Expr} (h : ReturnedForm ts value) :
    StmtReads (⟨.keyword .returnKw, p⟩ :: (ts ++ [⟨.punct .semicolon, q⟩])) (.ret value p) := by
  intro inLoop table table' t us rest heq hrest hfollows hjumps
  cases heq
  have hsame : table' = table := by
    cases h with
    | nothing => exact hfollows
    | value => exact (ShapeTable.follows_mentions.1 hfollows).2
  subst hsame
  rw [List.append_assoc, List.singleton_append]
  exact passesQuietly_statement_ret.2
    ⟨_, rfl, rfl, reads_returned.2 ⟨ts, value, q, rfl, rfl, h, hfollows⟩⟩

theorem branch {a : List Token} {alt : Alternative} (hc : ExprAt BinaryOp.loosest c e)
    (hb : BlockReads b ss) (ha : AlternativeReads a alt) :
    StmtReads (⟨.keyword .ifKw, p⟩ :: (parenthesized q c r ++ (braced o b u ++ a)))
      (.branch e ss alt p) := by
  intro inLoop table table' t us rest heq hrest hfollows hjumps
  cases heq
  obtain ⟨mid, hcondition, hlater⟩ := ShapeTable.follows_append.1 hfollows
  obtain ⟨hin, rfl⟩ := ShapeTable.follows_mentions.1 hcondition
  obtain ⟨next, hbody, halt⟩ := ShapeTable.follows_append.1 hlater
  obtain ⟨hjumps, hjumps'⟩ := jumpsFit_or.1 hjumps
  rw [List.append_assoc, List.append_assoc, braced_append]
  exact passesQuietly_statement_if.2 ⟨e, _, ss, next, _, alt, rfl,
    reads_condition.2 ⟨c, hc, hin, q, r, o, rfl⟩, hb.body _ u (a ++ rest) hbody hjumps,
    ha inLoop next table' rest hrest halt hjumps'⟩

theorem whileLoop (hc : ExprAt BinaryOp.loosest c e) (hb : BlockReads b ss) :
    StmtReads (⟨.keyword .whileKw, p⟩ :: (parenthesized q c r ++ braced o b u))
      (.whileLoop e ss p) := by
  intro inLoop table table' t us rest heq hrest hfollows hjumps
  cases heq
  obtain ⟨mid, hcondition, hbody⟩ := ShapeTable.follows_append.1 hfollows
  obtain ⟨hin, rfl⟩ := ShapeTable.follows_mentions.1 hcondition
  rw [List.append_assoc, braced_append]
  exact passesQuietly_statement_while.2 ⟨e, _, ss, rfl,
    reads_condition.2 ⟨c, hc, hin, q, r, o, rfl⟩, hb.body _ u rest hbody (jumpsFit_inLoop _)⟩

theorem forLoop {i n : List Token} {init : Option ForStart} {inc : Option Assignment}
    (hi : ForStartForm i init) (hc : ForConditionForm c e) (hn : ForIncrementForm n inc)
    (hb : BlockReads b ss) :
    StmtReads (⟨.keyword .forKw, p⟩ :: (parenthesized q (i ++ (c ++ n)) r ++ braced o b u))
      (.forLoop init e ss inc p) := by
  intro inLoop table table' t us rest heq hrest hfollows hjumps
  cases heq
  have hsplit : Stmt.mentions (.forLoop init e ss inc p) =
      ForHeader.mentions ⟨init, e, inc⟩ ++ Block.mentions ss := by
    simp only [Stmt.mentions, ForHeader.mentions, List.append_assoc]
  rw [hsplit] at hfollows
  obtain ⟨next, hheader, hbody⟩ := ShapeTable.follows_append.1 hfollows
  rw [List.append_assoc, braced_append]
  exact passesQuietly_statement_for.2 ⟨⟨init, e, inc⟩, next, _, ss, rfl,
    readsQuietly_forHeader.2 ⟨i, c, n, hi, hc, hn, hheader, q, r, o, rfl⟩,
    hb.body _ u rest hbody (jumpsFit_inLoop _)⟩

theorem jump {j : Jump} :
    StmtReads [⟨.keyword (.jump j), p⟩, ⟨.punct .semicolon, q⟩] (.jump j p) := by
  intro inLoop table table' t us rest heq hrest hfollows hjumps
  cases heq
  cases hfollows
  have hin : inLoop = true := by
    cases inLoop with
    | true => rfl
    | false => cases hjumps rfl
  exact passesQuietly_statement_jump.2 ⟨_, rfl, rfl, reads_jump.2 ⟨hin, rfl, q, rfl⟩⟩

end StmtReads

namespace AlternativeReads

variable {b : List Token} {ss : Block} {p q r : Position}

theorem none : AlternativeReads [] .none := by
  intro inLoop table table' rest hrest hfollows hjumps
  exact (passesQuietly_alternative_none hrest).2 ⟨rfl, hfollows, rfl⟩

theorem body (hb : BlockReads b ss) :
    AlternativeReads (⟨.keyword .elseKw, p⟩ :: braced q b r) (.body ss) := by
  intro inLoop table table' rest hrest hfollows hjumps
  rw [List.cons_append, braced_append]
  exact (passesQuietly_alternative_body (by simp)).2
    ⟨q, _, ss, rfl, rfl, hb.body _ r rest hfollows hjumps⟩

theorem branch {c a : List Token} {e : Expr} {alt : Alternative} {s o u : Position}
    (hc : ExprAt BinaryOp.loosest c e) (hb : BlockReads b ss) (ha : AlternativeReads a alt) :
    AlternativeReads (⟨.keyword .elseKw, p⟩ :: ⟨.keyword .ifKw, q⟩ ::
      (parenthesized r c s ++ (braced o b u ++ a))) (.branch e ss alt p) := by
  intro inLoop table table' rest hrest hfollows hjumps
  obtain ⟨mid, hcondition, hlater⟩ := ShapeTable.follows_append.1 hfollows
  obtain ⟨hin, rfl⟩ := ShapeTable.follows_mentions.1 hcondition
  obtain ⟨next, hbody, halt⟩ := ShapeTable.follows_append.1 hlater
  obtain ⟨hjumps, hjumps'⟩ := jumpsFit_or.1 hjumps
  rw [List.cons_append, List.cons_append, List.append_assoc, List.append_assoc, braced_append]
  exact passesQuietly_alternative_branch.2 ⟨e, _, ss, next, _, alt, rfl,
    reads_condition.2 ⟨c, hc, hin, r, s, o, rfl⟩, hb.body _ u (a ++ rest) hbody hjumps,
    ha inLoop next table' rest hrest halt hjumps'⟩

end AlternativeReads

namespace BlockReads

variable {ts us : List Token} {ss ss₂ : Block}

theorem nil : BlockReads [] [] := by
  intro place inLoop depth table mid table' ss' rest rest' hrest hfollows hjumps hread
  cases hfollows
  exact hread

theorem stmt {s : Stmt} (first : StmtForm ts s) (hfirst : StmtReads ts s) (others : BlockForm us ss)
    (hothers : BlockReads us ss) : BlockReads (ts ++ us) (s :: ss) := by
  intro place inLoop depth table mid table' ss' rest rest' hrest hfollows hjumps hread
  obtain ⟨t, vs, rfl, heof, -, hopen, hclose⟩ := first.opens
  obtain ⟨next, hfollows, hfollows'⟩ := ShapeTable.follows_append.1 hfollows
  obtain ⟨hjumps, hjumps'⟩ := jumpsFit_or.1 hjumps
  have hread' := hothers place inLoop depth next mid table' ss' rest rest' hrest hfollows' hjumps'
    hread
  have helse := others.symbol_append_ne_else hrest
  have hpass := hfirst inLoop table next t vs (us ++ rest) rfl helse hfollows hjumps
  rw [List.append_assoc]
  exact (readsQuietly_block_stmt heof hopen hclose).2
    ⟨some s, next, us ++ rest, ss ++ ss', hpass, hread', rfl⟩

theorem braces {p q : Position} (inner : BlockReads ts ss) (others : BlockReads us ss₂) :
    BlockReads (braced p ts q ++ us) (ss ++ ss₂) := by
  intro place inLoop depth table mid table' ss' rest rest' hrest hfollows hjumps hread
  rw [Block.mentions_append] at hfollows
  rw [Block.hasStrayJump_append] at hjumps
  obtain ⟨next, hinner, hothers⟩ := ShapeTable.follows_append.1 hfollows
  obtain ⟨hjumps, hjumps'⟩ := jumpsFit_or.1 hjumps
  -- the outer statements are read with one brace less open
  have hread' := others place inLoop depth next mid table' ss' rest rest' hrest hothers hjumps'
    hread
  have hinner := inner place inLoop (depth + 1) table next table' (ss₂ ++ ss')
    (⟨.punct .closeBrace, q⟩ :: (us ++ rest)) rest' (by simp) hinner hjumps
    (readsQuietly_block_close.2 hread')
  rw [List.append_assoc, List.append_assoc, braced_append]
  exact readsQuietly_block_open.2 hinner

end BlockReads

mutual

theorem StmtForm.reads : ∀ {ts : List Token} {s : Stmt}, StmtForm ts s → StmtReads ts s
  | _, _, .declare h => .declare h
  | _, _, .assign h => .assign h
  | _, _, .ret h => .ret h
  | _, _, .branch condition body otherwise => .branch condition body.reads otherwise.reads
  | _, _, .whileLoop condition body => .whileLoop condition body.reads
  | _, _, .forLoop start condition increment body =>
    .forLoop start condition increment body.reads
  | _, _, .jump => .jump

theorem AlternativeForm.reads : ∀ {ts : List Token} {otherwise : Alternative},
    AlternativeForm ts otherwise → AlternativeReads ts otherwise
  | _, _, .none => .none
  | _, _, .body body => .body body.reads
  | _, _, .branch condition body otherwise => .branch condition body.reads otherwise.reads

theorem BlockForm.reads : ∀ {ts : List Token} {ss : Block}, BlockForm ts ss → BlockReads ts ss
  | _, _, .nil => .nil
  | _, _, .stmt first others => .stmt first first.reads others others.reads
  | _, _, .braces inner others => .braces inner.reads others.reads

end

/-- **Bodies are read as the grammar derives them.** After the brace that opens a body, its
statements are read without a complaint exactly if they are derived, the table goes along with them
and every jump is in a loop. -/
theorem readsQuietly_block {place : Place} {inLoop : Bool} {table table' : ShapeTable}
    {ts rest : List Token} {ss : Block} :
    ReadsQuietly (block place inLoop 0 table ts) (ss, table') rest ↔
      ∃ b p, ts = b ++ ⟨.punct .closeBrace, p⟩ :: rest ∧ BlockForm b ss ∧
        table.Follows (Block.mentions ss) table' ∧ JumpsFit inLoop (Block.hasStrayJump ss) := by
  constructor
  · intro hread
    obtain ⟨taken, rfl, hcloses, hfollows, hjumps⟩ := block_sound _ hread
    cases hcloses with
    | @last b _ p hb =>
      refine ⟨b, p, ?_, hb, hfollows, hjumps⟩
      rw [List.append_assoc, List.singleton_append]
  · rintro ⟨b, p, rfl, hb, hfollows, hjumps⟩
    exact hb.reads.body place p rest hfollows hjumps

end Completeness

end ClockedC
