import ClockedC.Parse.Stmt

/-!
# What a parser has read

The answer of a parser carries the proof that it made headway. That proof is of no interest to
anyone who asks what was read, so this file speaks of the value and of the tokens that are left.

* `Reads` and `Passes` say that a parser succeeds with a value and leaves a rest.
* `Logged.Quiet` says that a computation succeeds without a complaint on its log.
* `ReadsQuietly` and `PassesQuietly` say so of parsers that keep a log.

The rest of the file says when the small parsers that look at one token succeed.
-/

namespace ClockedC

/-- A parser that has to take a token reads `a` and leaves `rest`. -/
def Reads {α : Type} {ts : List Token} (x : Except ParseError (Read α ts)) (a : α)
    (rest : List Token) : Prop :=
  ∃ h, x = .ok ⟨a, rest, h⟩

/-- A parser that may leave all tokens finds `a` and leaves `rest`. -/
def Passes {α : Type} {ts : List Token} (x : Except ParseError (Pass α ts)) (a : α)
    (rest : List Token) : Prop :=
  ∃ h, x = .ok ⟨a, rest, h⟩

/-- A notice complains where it warns, or says that a token was passed over. -/
def Notice.Complains (n : Notice) : Prop :=
  n.level = .warn ∨ ∃ found, n = .strayToken found

/-- A computation succeeds with `a`, and nothing on its log complains. -/
def Logged.Quiet {α : Type} (x : Logged α) (a : α) : Prop :=
  x.outcome = .ok a ∧ ∀ n ∈ x.log, ¬ n.Complains

/-- A parser that has to take a token reads `a`, leaves `rest` and does not complain. -/
def ReadsQuietly {α : Type} {ts : List Token} (x : Logged (Read α ts)) (a : α)
    (rest : List Token) : Prop :=
  ∃ h, x.Quiet ⟨a, rest, h⟩

/-- A parser that may leave all tokens finds `a`, leaves `rest` and does not complain. -/
def PassesQuietly {α : Type} {ts : List Token} (x : Logged (Pass α ts)) (a : α)
    (rest : List Token) : Prop :=
  ∃ h, x.Quiet ⟨a, rest, h⟩

theorem Reads.length_lt {α : Type} {ts rest : List Token} {x : Except ParseError (Read α ts)}
    {a : α} (h : Reads x a rest) : rest.length < ts.length :=
  h.choose.length_lt

theorem Reads.unique {α : Type} {ts rest rest' : List Token} {x : Except ParseError (Read α ts)}
    {a a' : α} (h : Reads x a rest) (h' : Reads x a' rest') : a' = a ∧ rest' = rest := by
  obtain ⟨_, h⟩ := h
  obtain ⟨_, h'⟩ := h'
  rw [h] at h'
  cases h'
  exact ⟨rfl, rfl⟩

/-! ## Answers taken apart -/

theorem exists_reads {α : Type} {ts rest : List Token} {x : Except ParseError (Read α ts)} {a : α} :
    (∃ h, x = .ok ⟨a, rest, h⟩) ↔ Reads x a rest := Iff.rfl

theorem exists_passes {α : Type} {ts rest : List Token} {x : Except ParseError (Pass α ts)}
    {a : α} : (∃ h, x = .ok ⟨a, rest, h⟩) ↔ Passes x a rest := Iff.rfl

theorem exists_readsQuietly {α : Type} {ts rest : List Token} {x : Logged (Read α ts)} {a : α} :
    (∃ h, x.Quiet ⟨a, rest, h⟩) ↔ ReadsQuietly x a rest := Iff.rfl

theorem exists_passesQuietly {α : Type} {ts rest : List Token} {x : Logged (Pass α ts)} {a : α} :
    (∃ h, x.Quiet ⟨a, rest, h⟩) ↔ PassesQuietly x a rest := Iff.rfl

theorem Read.exists {α : Type} {ts : List Token} {P : Read α ts → Prop} :
    (∃ r, P r) ↔ ∃ a rest h, P ⟨a, rest, h⟩ :=
  ⟨fun ⟨⟨a, rest, h⟩, hr⟩ => ⟨a, rest, h, hr⟩, fun ⟨a, rest, h, hr⟩ => ⟨⟨a, rest, h⟩, hr⟩⟩

theorem Pass.exists {α : Type} {ts : List Token} {P : Pass α ts → Prop} :
    (∃ r, P r) ↔ ∃ a rest h, P ⟨a, rest, h⟩ :=
  ⟨fun ⟨⟨a, rest, h⟩, hr⟩ => ⟨a, rest, h, hr⟩, fun ⟨a, rest, h, hr⟩ => ⟨⟨a, rest, h⟩, hr⟩⟩

theorem except_bind_eq_ok {ε α β : Type} {x : Except ε α} {f : α → Except ε β} {b : β} :
    x >>= f = .ok b ↔ ∃ a, x = .ok a ∧ f a = .ok b := by
  cases x with
  | error e =>
    constructor
    · intro h
      cases h
    · rintro ⟨a, ha, -⟩
      cases ha
  | ok a =>
    constructor
    · intro h
      exact ⟨a, rfl, h⟩
    · rintro ⟨a', ha, h⟩
      cases ha
      exact h

theorem reads_bind {α γ : Type} {ts rest : List Token} {x : Except ParseError γ}
    {f : γ → Except ParseError (Read α ts)} {a : α} :
    Reads (x >>= f) a rest ↔ ∃ c, x = .ok c ∧ Reads (f c) a rest := by
  simp only [Reads, except_bind_eq_ok]
  constructor
  · rintro ⟨h, c, hx, hf⟩
    exact ⟨c, hx, h, hf⟩
  · rintro ⟨c, hx, h, hf⟩
    exact ⟨h, c, hx, hf⟩

theorem passes_bind {α γ : Type} {ts rest : List Token} {x : Except ParseError γ}
    {f : γ → Except ParseError (Pass α ts)} {a : α} :
    Passes (x >>= f) a rest ↔ ∃ c, x = .ok c ∧ Passes (f c) a rest := by
  simp only [Passes, except_bind_eq_ok]
  constructor
  · rintro ⟨h, c, hx, hf⟩
    exact ⟨c, hx, h, hf⟩
  · rintro ⟨c, hx, h, hf⟩
    exact ⟨h, c, hx, hf⟩

theorem reads_ok {α : Type} {ts mid rest : List Token} {h : Beyond mid ts} {a b : α} :
    Reads (.ok ⟨b, mid, h⟩) a rest ↔ a = b ∧ rest = mid := by
  constructor
  · rintro ⟨h', heq⟩
    cases heq
    exact ⟨rfl, rfl⟩
  · rintro ⟨rfl, rfl⟩
    exact ⟨h, rfl⟩

theorem passes_ok {α : Type} {ts mid rest : List Token} {h : Left mid ts} {a b : α} :
    Passes (.ok ⟨b, mid, h⟩) a rest ↔ a = b ∧ rest = mid := by
  constructor
  · rintro ⟨h', heq⟩
    cases heq
    exact ⟨rfl, rfl⟩
  · rintro ⟨rfl, rfl⟩
    exact ⟨h, rfl⟩

theorem reads_pure {α : Type} {ts mid rest : List Token} {h : Beyond mid ts} {a b : α} :
    Reads (pure ⟨b, mid, h⟩) a rest ↔ a = b ∧ rest = mid := reads_ok

theorem passes_pure {α : Type} {ts mid rest : List Token} {h : Left mid ts} {a b : α} :
    Passes (pure ⟨b, mid, h⟩) a rest ↔ a = b ∧ rest = mid := passes_ok

theorem not_reads_error {α : Type} {ts rest : List Token} {e : ParseError} {a : α} :
    ¬ Reads (.error e : Except ParseError (Read α ts)) a rest := by
  rintro ⟨h, heq⟩
  cases heq

theorem not_passes_error {α : Type} {ts rest : List Token} {e : ParseError} {a : α} :
    ¬ Passes (.error e : Except ParseError (Pass α ts)) a rest := by
  rintro ⟨h, heq⟩
  cases heq

/-! ## Quiet computations -/

namespace Logged

/-- A computation in two parts is quiet where both parts are. -/
theorem quiet_bind {α β : Type} {x : Logged α} {f : α → Logged β} {b : β} :
    (x >>= f).Quiet b ↔ ∃ a, x.Quiet a ∧ (f a).Quiet b := by
  obtain ⟨log, outcome⟩ := x
  cases outcome with
  | error e =>
    constructor
    · rintro ⟨h, -⟩
      cases h
    · rintro ⟨a, ⟨h, -⟩, -⟩
      cases h
  | ok a =>
    have hbind : (⟨log, .ok a⟩ : Logged α) >>= f = ⟨log ++ (f a).log, (f a).outcome⟩ := rfl
    rw [hbind]
    constructor
    · rintro ⟨hout, hlog⟩
      obtain ⟨hfirst, hsecond⟩ := List.forall_mem_append.1 hlog
      exact ⟨a, ⟨rfl, hfirst⟩, hout, hsecond⟩
    · rintro ⟨a', ⟨h, hfirst⟩, hout, hsecond⟩
      cases h
      exact ⟨hout, List.forall_mem_append.2 ⟨hfirst, hsecond⟩⟩

theorem quiet_pure {α : Type} {a b : α} : (pure a : Logged α).Quiet b ↔ a = b := by
  constructor
  · rintro ⟨h, -⟩
    cases h
    rfl
  · rintro rfl
    exact ⟨rfl, nofun⟩

theorem quiet_lift {α : Type} {x : Except ParseError α} {a : α} :
    (liftM x : Logged α).Quiet a ↔ x = .ok a :=
  ⟨And.left, fun h => ⟨h, nofun⟩⟩

theorem not_quiet_fail {α : Type} {e : ParseError} {a : α} : ¬ (fail e : Logged α).Quiet a :=
  fun h => nomatch h.1

theorem quiet_tell {n : Notice} {u : Unit} : (tell n).Quiet u ↔ ¬ n.Complains := by
  constructor
  · rintro ⟨-, hlog⟩
    exact hlog n (List.mem_singleton_self n)
  · intro hn
    refine ⟨rfl, ?_⟩
    intro n' hn'
    rwa [List.mem_singleton.1 hn']

/-- A complaint stays on the log. -/
theorem not_quiet_complaint {α : Type} {n : Notice} {f : Unit → Logged α} {a : α}
    (hn : n.Complains) : ¬ (tell n >>= f).Quiet a := by
  rw [quiet_bind]
  rintro ⟨u, h, -⟩
  exact quiet_tell.1 h hn

end Logged

theorem readsQuietly_bind {α γ : Type} {ts rest : List Token} {x : Logged γ}
    {f : γ → Logged (Read α ts)} {a : α} :
    ReadsQuietly (x >>= f) a rest ↔ ∃ c, x.Quiet c ∧ ReadsQuietly (f c) a rest := by
  simp only [ReadsQuietly, Logged.quiet_bind]
  constructor
  · rintro ⟨h, c, hx, hf⟩
    exact ⟨c, hx, h, hf⟩
  · rintro ⟨c, hx, h, hf⟩
    exact ⟨h, c, hx, hf⟩

theorem passesQuietly_bind {α γ : Type} {ts rest : List Token} {x : Logged γ}
    {f : γ → Logged (Pass α ts)} {a : α} :
    PassesQuietly (x >>= f) a rest ↔ ∃ c, x.Quiet c ∧ PassesQuietly (f c) a rest := by
  simp only [PassesQuietly, Logged.quiet_bind]
  constructor
  · rintro ⟨h, c, hx, hf⟩
    exact ⟨c, hx, h, hf⟩
  · rintro ⟨c, hx, h, hf⟩
    exact ⟨h, c, hx, hf⟩

theorem readsQuietly_pure {α : Type} {ts mid rest : List Token} {h : Beyond mid ts} {a b : α} :
    ReadsQuietly (pure ⟨b, mid, h⟩) a rest ↔ a = b ∧ rest = mid := by
  constructor
  · rintro ⟨h', heq, -⟩
    cases heq
    exact ⟨rfl, rfl⟩
  · rintro ⟨rfl, rfl⟩
    exact ⟨h, rfl, nofun⟩

theorem passesQuietly_pure {α : Type} {ts mid rest : List Token} {h : Left mid ts} {a b : α} :
    PassesQuietly (pure ⟨b, mid, h⟩) a rest ↔ a = b ∧ rest = mid := by
  constructor
  · rintro ⟨h', heq, -⟩
    cases heq
    exact ⟨rfl, rfl⟩
  · rintro ⟨rfl, rfl⟩
    exact ⟨h, rfl, nofun⟩

/-! ## One token -/

namespace Cursor

@[simp] theorem symbol_cons (t : Token) (ts : List Token) : symbol (t :: ts) = t.symbol := rfl

theorem exists_of_symbol_eq {s : Symbol} {ts : List Token} (hs : s ≠ .eof) (h : symbol ts = s) :
    ∃ position rest, ts = ⟨s, position⟩ :: rest := by
  cases ts with
  | nil => exact absurd h.symm hs
  | cons t rest =>
    subst h
    exact ⟨t.position, rest, rfl⟩

theorem next?_eq_none {ts : List Token} (h : symbol ts = .eof) : next? ts = none := by
  cases ts with
  | nil => rfl
  | cons t rest => exact dif_pos h

/-- Either a token comes next, or the source ends. -/
theorem next?_cases (ts : List Token) :
    (∃ s position rest h, ts = ⟨s, position⟩ :: rest ∧
      next? ts = some ⟨⟨s, position⟩, rest, h⟩) ∨ symbol ts = .eof ∧ next? ts = none := by
  cases ts with
  | nil => exact Or.inr ⟨rfl, rfl⟩
  | cons t rest =>
    by_cases ht : t.symbol = .eof
    · exact Or.inr ⟨ht, next?_eq_none ht⟩
    · exact Or.inl ⟨t.symbol, t.position, rest, _, rfl, next?_cons ht rest⟩

theorem accept_self {s : Symbol} (hs : s ≠ .eof) (position : Position) (ts : List Token) :
    accept s (⟨s, position⟩ :: ts) = some ⟨(), ts, Beyond.cons hs ts⟩ := by
  rw [accept, next?_cons hs]
  exact if_pos rfl

theorem accept_punct (mark : Punct) (position : Position) (ts : List Token) :
    accept (.punct mark) (⟨.punct mark, position⟩ :: ts) =
      some ⟨(), ts, Beyond.cons (t := ⟨.punct mark, position⟩) (by simp) ts⟩ :=
  accept_self (s := .punct mark) (by simp) position ts

theorem accept_keyword (word : Keyword) (position : Position) (ts : List Token) :
    accept (.keyword word) (⟨.keyword word, position⟩ :: ts) =
      some ⟨(), ts, Beyond.cons (t := ⟨.keyword word, position⟩) (by simp) ts⟩ :=
  accept_self (s := .keyword word) (by simp) position ts

theorem accept_operator (spelling : String) (position : Position) (ts : List Token) :
    accept (.operator spelling) (⟨.operator spelling, position⟩ :: ts) =
      some ⟨(), ts, Beyond.cons (t := ⟨.operator spelling, position⟩) (by simp) ts⟩ :=
  accept_self (s := .operator spelling) (by simp) position ts

theorem accept_eq_none {s : Symbol} {ts : List Token} (h : symbol ts ≠ s) :
    accept s ts = none := by
  cases ts with
  | nil => rfl
  | cons t rest =>
    by_cases ht : t.symbol = .eof
    · rw [accept, next?_eq_none ((symbol_cons t rest).trans ht)]
    · rw [accept, next?_cons ht]
      exact if_neg h

/-- Either a symbol comes next, and `accept` takes it, or it does not. -/
theorem accept_cases {s : Symbol} (hs : s ≠ .eof) (ts : List Token) :
    (∃ position rest h, ts = ⟨s, position⟩ :: rest ∧ accept s ts = some ⟨(), rest, h⟩) ∨
      symbol ts ≠ s ∧ accept s ts = none := by
  by_cases h : symbol ts = s
  · obtain ⟨position, rest, rfl⟩ := exists_of_symbol_eq hs h
    exact Or.inl ⟨position, rest, _, rfl, accept_self hs position rest⟩
  · exact Or.inr ⟨h, accept_eq_none h⟩

theorem reads_expect {mark : Punct} {place : Place} {ts rest : List Token} {u : Unit} :
    Reads (expect mark place ts) u rest ↔ ∃ position, ts = ⟨.punct mark, position⟩ :: rest := by
  rcases accept_cases (s := .punct mark) (by simp) ts with ⟨p, tail, h, rfl, hacc⟩ | ⟨hne, hacc⟩
  · rw [Reads, expect, hacc]
    constructor
    · rintro ⟨_, heq⟩
      cases heq
      exact ⟨p, rfl⟩
    · rintro ⟨q, heq⟩
      cases heq
      exact ⟨h, rfl⟩
  · rw [Reads, expect, hacc]
    constructor
    · rintro ⟨_, heq⟩
      cases heq
    · rintro ⟨q, rfl⟩
      exact absurd rfl hne

end Cursor

end ClockedC
