import ClockedC.Proofs.ShapeHistory
import ClockedC.Proofs.StackView

/-!
# A process does in a tick what its function does in a run

A plain function and its process go side by side, statement by statement and round by round. The
variables of the process hold the stack of the function all the way, and where a loop asks for its
next round, the process has already carried out the increment that the function is about to.

* `Both` relates two runs that give related answers or are both cut short by the bound.
* `Simulates` says that from a stack held by the variables both sides come to endings that match.
* `Stmt.simulates` and `Block.simulates` go through the statements.
-/

namespace ClockedC

/-! ## Two runs -/

section

variable {α β γ δ σ τ ε : Type}

/-- Two runs give related answers, or both get over the bound. -/
inductive Both (R : α → β → Prop) : Run α → Run β → Prop
  | ok {a : α} {b : β} (h : R a b) : Both R (.ok a) (.ok b)
  | exhausted : Both R (.error .exhausted) (.error .exhausted)

namespace Both

variable {R : α → β → Prop} {S : γ → δ → Prop} {x : Run α} {y : Run β}

theorem of_ok {a : α} {b : β} (hx : x = .ok a) (hy : y = .ok b) (h : R a b) : Both R x y := by
  rw [hx, hy]
  exact .ok h

theorem mono {R' : α → β → Prop} (hR : ∀ a b, R a b → R' a b) (h : Both R x y) : Both R' x y := by
  cases h with
  | ok h => exact .ok (hR _ _ h)
  | exhausted => exact .exhausted

theorem bind {run : α → Run γ} {run' : β → Run δ} (h : Both R x y)
    (hrun : ∀ a b, R a b → Both S (run a) (run' b)) : Both S (x >>= run) (y >>= run') := by
  cases h with
  | ok h => exact hrun _ _ h
  | exhausted => exact .exhausted

theorem bind_left {T : γ → β → Prop} {run : α → Run γ} (h : Both R x y)
    (hrun : ∀ a b, R a b → ∃ c, run a = .ok c ∧ T c b) : Both T (x >>= run) y := by
  rw [← bind_pure y]
  refine h.bind ?_
  intro a b hab
  obtain ⟨c, hc, hT⟩ := hrun a b hab
  exact of_ok hc rfl hT

/-- Two rounds either both go on in related states, or both end the loop. -/
def RoundsEnd (I : σ → τ → Prop) (S : γ × σ → δ × τ → Prop) :
    Option γ × σ → Option δ × τ → Prop
  | (none, s), (none, t) => I s t
  | (some c, s), (some d, t) => S (c, s) (d, t)
  | _, _ => False

/-- An invariant that each pair of rounds keeps leads from the first rounds to the last. -/
theorem rounds {I : σ → τ → Prop} {S : γ × σ → δ × τ → Prop} {round : σ → Run (Option γ × σ)}
    {round' : τ → Run (Option δ × τ)}
    (hround : ∀ s t, I s t → Both (RoundsEnd I S) (round s) (round' t)) (bound : Nat) :
    ∀ s t, I s t → Both S (rounds round bound s) (ClockedC.rounds round' bound t) := by
  induction bound with
  | zero =>
    intro s t _
    exact .exhausted
  | succ bound ih =>
    intro s t hst
    rw [ClockedC.rounds, ClockedC.rounds]
    refine (hround s t hst).bind ?_
    rintro ⟨_ | c, s⟩ ⟨_ | d, t⟩ h
    · exact ih s t h
    · exact h.elim
    · exact h.elim
    · exact .ok h

end Both

end

/-! ## Inside of a loop -/

theorem Expr.readsOnly_mono {p p' : String → Bool} (h : ∀ n, p n = true → p' n = true) :
    ∀ e : Expr, e.readsOnly p = true → e.readsOnly p' = true
  | .number _, _ => rfl
  | .name n, he => h n he
  | .unary _ operand, he => readsOnly_mono h operand he
  | .binary _ left right, he => by
    rw [readsOnly, Bool.and_eq_true] at he ⊢
    exact ⟨readsOnly_mono h left he.1, readsOnly_mono h right he.2⟩

theorem Assignment.avoids_of_subset {ds ds' : List Declaration} (hds : ds ⊆ ds') {a : Assignment}
    (h : a.avoids ds' = true) : a.avoids ds = true := by
  have hother : ∀ n : String, (!(ds'.map Declaration.name).contains n) = true →
      (!(ds.map Declaration.name).contains n) = true := by
    intro n hn
    rw [Bool.not_eq_true', ← Bool.not_eq_true, List.contains_iff_mem] at hn ⊢
    exact fun hmem => hn (List.map_subset _ hds hmem)
  obtain ⟨n, htarget, hn, hreads⟩ := usesOnly_iff.mp h
  exact usesOnly_iff.mpr ⟨n, htarget, hother n hn, Expr.readsOnly_mono hother _ hreads⟩

/-- Where a name stands for the same as before, so does an assignment that uses no other. -/
theorem Assignment.lower_bindVariable {a : Assignment} {d : Declaration} {v : ProcessVariable}
    (hsource : v.source = d.name) (h : a.avoids [d] = true) (n : Naming) :
    a.lower (n.bindVariable v) = a.lower n := by
  have hother : ∀ name : String, (!([d].map Declaration.name).contains name) = true →
      (n.bindVariable v).resolve name = n.resolve name := by
    intro name hname
    rw [Bool.not_eq_true', ← Bool.not_eq_true, List.contains_iff_mem, List.map_singleton,
      List.mem_singleton, ← hsource] at hname
    rw [Naming.resolve_eq_lookup, Naming.resolve_eq_lookup, Naming.bindings_bindVariable,
      List.lookup_cons, beq_eq_false_iff_ne.mpr hname]
  have htarget : (n.bindVariable v).resultTarget = n.resultTarget := by
    rw [Naming.resultTarget, Naming.resultTarget,
      (Naming.Extends.bindVariable n v).holdsResult_eq]
  have hnameOf : ∀ name : String, (!([d].map Declaration.name).contains name) = true →
      (n.bindVariable v).nameOf name = n.nameOf name := by
    intro name hname
    rw [Naming.nameOf, Naming.nameOf, hother name hname, htarget]
  obtain ⟨name, ha, hname, hreads⟩ := usesOnly_iff.mp h
  rw [lower, lower, ha]
  dsimp only
  rw [hother name hname, hnameOf name hname, Expr.resolve, Expr.resolve,
    Expr.rename_congr hnameOf _ hreads]

/-- The innermost loop: the state that its rounds start in, and its increment. -/
structure LoopContext where
  start : Lowering
  increment : Option Assignment

/-- A state inside of a loop of a function, with some declarations ahead. The increment means here
what it means at the end of a round, and none of the declarations changes that. -/
structure Ready (f : Function) (c : LoopContext) (s : Lowering) (ahead : List Declaration) :
    Prop where
  sound : s.Sound f
  start : c.start.Sound f
  suffix : c.start.naming.bindings <:+ s.naming.bindings
  increment : ∀ a ∈ c.increment, a.isPlain (c.start.naming.visible f) = true ∧
    a.lower s.naming = a.lower c.start.naming ∧ a.avoids ahead = true
  place : ahead <+: f.declarations.drop s.seen

namespace Ready

variable {f : Function} {c : LoopContext} {s : Lowering} {ds ds' : List Declaration}
  {d : Declaration}

theorem push (h : Ready f c s ds) : Ready f c s.push ds :=
  ⟨⟨h.sound.declared, h.sound.holdsResult, h.sound.seen, h.sound.distinct⟩, h.start, h.suffix,
    h.increment, h.place⟩

theorem left (h : Ready f c s (ds ++ ds')) : Ready f c s ds := by
  refine ⟨h.sound, h.start, h.suffix, ?_, (List.prefix_append ds ds').trans h.place⟩
  intro a ha
  obtain ⟨hplain, hlower, havoids⟩ := h.increment a ha
  exact ⟨hplain, hlower, Assignment.avoids_of_subset (List.subset_append_left ds ds') havoids⟩

theorem right (h : Ready f c s (ds ++ ds')) : Ready f c ⟨s.naming, s.seen + ds.length⟩ ds' := by
  refine ⟨h.sound.skip ds.length, h.start, h.suffix, ?_, ?_⟩
  · intro a ha
    obtain ⟨hplain, hlower, havoids⟩ := h.increment a ha
    exact ⟨hplain, hlower, Assignment.avoids_of_subset (List.subset_append_right ds ds') havoids⟩
  · obtain ⟨after, hafter⟩ := h.place
    refine ⟨after, ?_⟩
    rw [← List.drop_drop, ← hafter, List.append_assoc, List.drop_left]

theorem place_head (h : Ready f c s (d :: ds)) : f.declarations[s.seen]? = some d := by
  obtain ⟨after, hafter⟩ := h.place
  rw [← Nat.add_zero s.seen, ← List.getElem?_drop, ← hafter]
  rfl

theorem declare (plain : f.Plain) (h : Ready f c s (d :: ds))
    (hd : d.isPlain (s.naming.visible f) = true) : Ready f c (d.lower s).2 ds := by
  have hright : Ready f c ⟨s.naming, s.seen + 1⟩ ds :=
    right (show Ready f c s ([d] ++ ds) from h)
  obtain ⟨v, init, hv, hsource, -, -, heq⟩ :=
    Declaration.exists_lower_eq plain h.sound h.place_head hd
  have hsuffix := (Naming.Extends.bindVariable s.naming v).suffix
  rw [heq]
  refine ⟨h.sound.bindVariable plain hv, h.start, h.suffix.trans hsuffix, ?_, hright.place⟩
  intro a ha
  obtain ⟨hplain, hlower, havoids⟩ := h.increment a ha
  have hd : a.avoids [d] = true := Assignment.avoids_of_subset (by simp) havoids
  exact ⟨hplain, (Assignment.lower_bindVariable hsource hd s.naming).trans hlower,
    Assignment.avoids_of_subset (List.subset_cons_self d ds) havoids⟩

/-- The body of a loop starts in a context of its own. -/
theorem enter {step : Option Assignment} (h : Ready f c s ds)
    (hstep : ∀ a ∈ step, a.isPlain (s.naming.visible f) = true ∧ a.avoids ds = true) :
    Ready f ⟨s, step⟩ s.push ds := by
  refine ⟨h.push.sound, h.sound, List.suffix_refl _, ?_, h.place⟩
  intro a ha
  exact ⟨(hstep a ha).1, rfl, (hstep a ha).2⟩

end Ready

/-! ## Endings -/

section

variable {V : Type}

/-- The endings of a body on both sides. The naming is the one at the end of the body, and what had
been driven before is given. A return drives the output and lets the process go on; a jump is one
out of the loop, and where it asks for the next round, the process has done the increment. -/
inductive Matches (f : Function) (m : Meaning V) (signals : String → V) (c : LoopContext)
    (returns jumps : Bool) (n : Naming) (driven : List (String × V)) :
    Ending V × Stack V → Option Jump × Tick V → Prop
  | through {stack : Stack V} {t : Tick V} (sees : Sees (f.inputs signals) n t stack)
      (driven_eq : t.driven = driven) :
      Matches f m signals c returns jumps n driven (.through, stack) (none, t)
  | returned {stack : Stack V} {t : Tick V} {value : Option V} (may : returns = true)
      (sees : Sees (f.inputs signals) n t stack)
      (driven_eq : t.driven = (value.map (outputName, ·)).toList ++ driven) :
      Matches f m signals c returns jumps n driven (.returned value, stack) (none, t)
  | leave {stack : Stack V} {t : Tick V} (may : jumps = true)
      (sees : Sees (f.inputs signals) c.start.naming t
        (stack.leave (c.start.naming.bindings.length + (f.inputs signals).length)))
      (driven_eq : t.driven = driven) :
      Matches f m signals c returns jumps n driven (.jump .leave, stack) (some .leave, t)
  | again {stack after : Stack V} {t : Tick V} (may : jumps = true)
      (step : optionally (Assignment.exec m) c.increment
        (stack.leave (c.start.naming.bindings.length + (f.inputs signals).length)) = .ok after)
      (sees : Sees (f.inputs signals) c.start.naming t after) (driven_eq : t.driven = driven) :
      Matches f m signals c returns jumps n driven (.jump .again, stack) (some .again, t)

/-- From a stack that the variables hold, both sides come to endings that match. -/
def Simulates (f : Function) (m : Meaning V) (signals : String → V) (c : LoopContext)
    (returns jumps : Bool) (n n' : Naming) (run : Stack V → Run (Ending V × Stack V))
    (tick : Tick V → Run (Option Jump × Tick V)) : Prop :=
  ∀ stack t, Sees (f.inputs signals) n t stack →
    Both (Matches f m signals c returns jumps n' t.driven) (run stack) (tick t)

variable {f : Function} {m : Meaning V} {signals : String → V} {c : LoopContext}
  {returns returns' jumps jumps' : Bool} {n n' n'' : Naming}
  {run run' : Stack V → Run (Ending V × Stack V)} {tick tick' : Tick V → Run (Option Jump × Tick V)}

theorem Matches.mono {driven : List (String × V)} {a : Ending V × Stack V}
    {b : Option Jump × Tick V} (hreturns : returns = true → returns' = true)
    (hjumps : jumps = true → jumps' = true)
    (h : Matches f m signals c returns jumps n driven a b) :
    Matches f m signals c returns' jumps' n driven a b := by
  cases h with
  | through sees hdriven => exact .through sees hdriven
  | returned may sees hdriven => exact .returned (hreturns may) sees hdriven
  | leave may sees hdriven => exact .leave (hjumps may) sees hdriven
  | again may step sees hdriven => exact .again (hjumps may) step sees hdriven

namespace Simulates

theorem mono (hreturns : returns = true → returns' = true) (hjumps : jumps = true → jumps' = true)
    (h : Simulates f m signals c returns jumps n n' run tick) :
    Simulates f m signals c returns' jumps' n n' run tick := by
  intro stack t hsees
  exact (h stack t hsees).mono fun _ _ => Matches.mono hreturns hjumps

theorem or_left (returns' jumps' : Bool)
    (h : Simulates f m signals c returns jumps n n' run tick) :
    Simulates f m signals c (returns || returns') (jumps || jumps') n n' run tick :=
  h.mono (fun hmay => by rw [hmay, Bool.true_or]) (fun hmay => by rw [hmay, Bool.true_or])

theorem or_right (returns' jumps' : Bool)
    (h : Simulates f m signals c returns jumps n n' run tick) :
    Simulates f m signals c (returns' || returns) (jumps' || jumps) n n' run tick :=
  h.mono (fun hmay => by rw [hmay, Bool.or_true]) (fun hmay => by rw [hmay, Bool.or_true])

/-- The names of a nested body are gone after it, and their variables are no longer looked at. -/
theorem nested (hc : c.start.naming.bindings <:+ n.bindings) (hn : n.bindings <:+ n'.bindings)
    (h : Simulates f m signals c returns jumps n n' run tick) :
    Simulates f m signals c returns jumps n n (ClockedC.nested run) tick := by
  intro stack t hsees
  have hlow := hc.length_le
  refine (h stack t hsees).bind_left ?_
  rintro ⟨ending, after⟩ ⟨jump, t'⟩ hmatch
  refine ⟨(ending, after.leave stack.length), rfl, ?_⟩
  rw [hsees.length_eq]
  cases hmatch with
  | through sees hdriven => exact .through (sees.leave hn) hdriven
  | returned may sees hdriven => exact .returned may (sees.leave hn) hdriven
  | leave may sees hdriven =>
    refine .leave may ?_ hdriven
    rw [Stack.leave_leave (by omega)]
    exact sees
  | again may step sees hdriven =>
    refine .again may ?_ sees hdriven
    rw [Stack.leave_leave (by omega)]
    exact step

/-- One part after the other. Where the first returns, nothing is left for the process to do. -/
theorem seq (first : Simulates f m signals c returns jumps n n' run tick)
    (rest : Simulates f m signals c returns' jumps' n' n'' run' tick')
    (hreturns : returns = true → n'' = n' ∧ ∀ t, tick' t = .ok (none, t)) :
    Simulates f m signals c (returns || returns') (jumps || jumps') n n''
      (fun stack => do
        match ← run stack with
        | (.through, stack) => run' stack
        | stopped => return stopped)
      (fun t => do
        match ← tick t with
        | (none, t) => tick' t
        | stopped => return stopped) := by
  intro stack t hsees
  refine (first stack t hsees).bind ?_
  intro a b hmatch
  cases hmatch with
  | through sees hdriven =>
    have hrest := rest.or_right returns jumps _ _ sees
    rw [hdriven] at hrest
    exact hrest
  | returned may sees hdriven =>
    obtain ⟨rfl, hpure⟩ := hreturns may
    exact .of_ok rfl (hpure _) (.returned (by rw [may]; rfl) sees hdriven)
  | leave may sees hdriven => exact .ok (.leave (by rw [may]; rfl) sees hdriven)
  | again may step sees hdriven => exact .ok (.again (by rw [may]; rfl) step sees hdriven)

theorem branch (plain : f.Plain) {s : Lowering} (sound : s.Sound f) {condition : Expr}
    (hcondition : condition.readsOnly (s.naming.visible f).has = true)
    (body : Simulates f m signals c returns jumps s.naming n' run tick)
    (otherwise : Simulates f m signals c returns' jumps' s.naming n' run' tick') :
    Simulates f m signals c (returns || returns') (jumps || jumps') s.naming n'
      (fun stack => do if ← condition.holds m (stack.lookup ·) then run stack else run' stack)
      (fun t => do
        if ← (condition.resolve s.naming).holds m ((f.surroundings m signals).read t) then tick t
        else tick' t) := by
  intro stack t hsees
  obtain ⟨truth, hholds, hholds'⟩ := hsees.holds (m := m) plain sound hcondition
  dsimp only
  rw [hholds, hholds']
  cases truth with
  | true => exact body.or_left returns' jumps' stack t hsees
  | false => exact otherwise.or_right returns jumps stack t hsees

/-- Both sides take the same steps first. -/
theorem after {start : Stack V → Run (Stack V)} {before rest : List Sequential} {bound : Nat}
    (hstart : ∀ stack t, Sees (f.inputs signals) n t stack → ∃ stack' t', start stack = .ok stack' ∧
      Sequential.execList (f.surroundings m signals) bound before t = .ok (none, t') ∧
      Sees (f.inputs signals) n' t' stack' ∧ t'.driven = t.driven)
    (h : Simulates f m signals c returns jumps n' n'' run
      (Sequential.execList (f.surroundings m signals) bound rest)) :
    Simulates f m signals c returns jumps n n'' (fun stack => start stack >>= run)
      (Sequential.execList (f.surroundings m signals) bound (before ++ rest)) := by
  intro stack t hsees
  obtain ⟨stack', t', hrun, hexec, hsees', hdriven⟩ := hstart stack t hsees
  have hrest := h stack' t' hsees'
  rw [hdriven] at hrest
  dsimp only
  rw [Sequential.execList_append, hrun, hexec]
  exact hrest

end Simulates

/-! ## Loops -/

theorem exec_increment (plain : f.Plain) {s : Lowering} (sound : s.Sound f)
    {step : Option Assignment} (hstep : ∀ a ∈ step, a.isPlain (s.naming.visible f) = true)
    (bound : Nat) {stack : Stack V} {t : Tick V}
    (h : Sees (f.inputs signals) s.naming t stack) :
    ∃ stack' t', optionally (Assignment.exec m) step stack = .ok stack' ∧
      Sequential.execList (f.surroundings m signals) bound
        (step.map (Assignment.lower s.naming)).toList t = .ok (none, t') ∧
      Sees (f.inputs signals) s.naming t' stack' ∧ t'.driven = t.driven := by
  cases step with
  | none => exact ⟨stack, t, rfl, by rw [Option.map_none, Option.toList_none]; rfl, h, rfl⟩
  | some a =>
    rw [Option.map_some, Option.toList_some, Sequential.execList_singleton]
    exact Assignment.exec_lower plain sound h (hstep a rfl) bound

/-- One round on both sides. Either both go on with the variables holding the stack, or the loop is
over on both. -/
theorem loopRound_both (plain : f.Plain) {s : Lowering} (sound : s.Sound f) {condition : Expr}
    (hcondition : condition.readsOnly (s.naming.visible f).has = true) {step : Option Assignment}
    (hstep : ∀ a ∈ step, a.isPlain (s.naming.visible f) = true) {body : List Sequential}
    {bound : Nat} (hn : s.naming.bindings <:+ n'.bindings)
    (h : Simulates f m signals ⟨s, step⟩ false jumps s.naming n' run
      (Sequential.execList (f.surroundings m signals) bound body))
    (driven : List (String × V)) (stack : Stack V) (t : Tick V)
    (hstart : Sees (f.inputs signals) s.naming t stack ∧ t.driven = driven) :
    Both
      (Both.RoundsEnd (fun stack t => Sees (f.inputs signals) s.naming t stack ∧ t.driven = driven)
        fun a b => a.1 = .through ∧ Sees (f.inputs signals) s.naming b.2 a.2 ∧ b.2.driven = driven)
      (loopRound m condition run (optionally (Assignment.exec m) step) stack)
      ((f.surroundings m signals).loopRound (condition.resolve s.naming)
        (Sequential.execList (f.surroundings m signals) bound
          (body ++ (step.map (Assignment.lower s.naming)).toList)) t) := by
  obtain ⟨hsees, rfl⟩ := hstart
  obtain ⟨truth, hholds, hholds'⟩ := hsees.holds (m := m) plain sound hcondition
  rw [loopRound, Surroundings.loopRound, hholds]
  rw [show (f.surroundings m signals).meaning = m from rfl, hholds']
  cases truth with
  | false => exact .ok ⟨rfl, hsees, rfl⟩
  | true =>
    change Both _ (nested run stack >>= _) (Sequential.execList _ bound (body ++ _) t >>= _)
    rw [nested, Sequential.execList_append, bind_assoc, bind_assoc, hsees.length_eq]
    refine (h stack t hsees).bind ?_
    intro a b hmatch
    cases hmatch with
    | through sees hdriven =>
      obtain ⟨after, t', hexec, hexec', hsees', hdriven'⟩ :=
        exec_increment (m := m) plain sound hstep bound (sees.leave hn)
      rw [pure_bind]
      dsimp only
      rw [hexec, hexec']
      exact .ok ⟨hsees', hdriven'.trans hdriven⟩
    | returned may => cases may
    | leave may sees hdriven => exact .ok ⟨rfl, sees, hdriven⟩
    | again may hexec sees hdriven =>
      dsimp only at hexec
      rw [pure_bind]
      dsimp only
      rw [hexec]
      exact .ok ⟨sees, hdriven⟩

/-- A loop comes to its end on both sides after the same rounds. -/
theorem Simulates.loop (plain : f.Plain) {s : Lowering} (sound : s.Sound f) {condition : Expr}
    (hcondition : condition.readsOnly (s.naming.visible f).has = true) {step : Option Assignment}
    (hstep : ∀ a ∈ step, a.isPlain (s.naming.visible f) = true) {body : List Sequential}
    {bound : Nat} (hn : s.naming.bindings <:+ n'.bindings)
    (h : Simulates f m signals ⟨s, step⟩ false jumps s.naming n' run
      (Sequential.execList (f.surroundings m signals) bound body)) :
    Simulates f m signals c false false s.naming s.naming
      (rounds (loopRound m condition run (optionally (Assignment.exec m) step)) bound)
      (Sequential.execList (f.surroundings m signals) bound
        [.loop (condition.resolve s.naming)
          (body ++ (step.map (Assignment.lower s.naming)).toList)]) := by
  intro stack t hsees
  have hround := loopRound_both plain sound hcondition hstep hn h t.driven
  rw [Sequential.execList_singleton, Sequential.exec, ← bind_pure (rounds _ _ stack)]
  refine (Both.rounds hround bound stack t ⟨hsees, rfl⟩).bind ?_
  rintro ⟨ending, stack'⟩ ⟨⟨⟩, t'⟩ ⟨rfl, hsees', hdriven⟩
  exact .ok (.through hsees' hdriven)

/-! ## Statements -/

/-- The state after a statement is ready for what follows it. -/
theorem Ready.stmt (plain : f.Plain) {s : Lowering} {stmt : Stmt} {ds : List Declaration}
    (h : Ready f c s (stmt.declarations ++ ds))
    (hplain : stmt.isPlain (s.naming.visible f) = true) :
    Ready f c ⟨stmt.namingAfter s, s.seen + stmt.declarations.length⟩ ds ∧
      (stmt.namingAfter s).visible f = (s.naming.visible f).add stmt.ownDeclarations := by
  cases stmt with
  | declare d =>
    rw [Stmt.isPlain] at hplain
    rw [Stmt.declarations] at h ⊢
    have hdeclare : Ready f c (d.lower s).2 ds := Ready.declare plain h hplain
    rw [d.lower_snd] at hdeclare
    have hvisible := (Declaration.sound_lower plain h.sound h.place_head hplain).2
    rw [Stmt.namingAfter, Stmt.ownDeclarations, List.length_singleton, d.lower_snd]
    rw [d.lower_snd] at hvisible
    exact ⟨hdeclare, hvisible⟩
  | _ => exact ⟨h.right, rfl⟩

/-- The state at the first round of a `for` loop is ready for the body. -/
theorem Ready.afterStart (plain : f.Plain) {s : Lowering} {init : Option ForStart}
    {ds : List Declaration}
    (h : Ready f c s ((init.map ForStart.declarations).getD [] ++ ds))
    (hplain : init.all (ForStart.isPlain (s.naming.visible f)) = true) :
    Ready f c (lowerStart init s).2 ds ∧
      (lowerStart init s).2.naming.visible f =
        (s.naming.visible f).add ((init.map ForStart.declarations).getD []) := by
  rcases init with _ | d | a
  · exact ⟨h, rfl⟩
  · exact ⟨Ready.declare plain h hplain, (d.sound_lower plain h.sound h.place_head hplain).2⟩
  · exact ⟨h, rfl⟩

theorem exec_start (plain : f.Plain) {s : Lowering} {init : Option ForStart}
    {ds : List Declaration}
    (h : Ready f c s ((init.map ForStart.declarations).getD [] ++ ds))
    (hplain : init.all (ForStart.isPlain (s.naming.visible f)) = true) (bound : Nat)
    {stack : Stack V} {t : Tick V} (hsees : Sees (f.inputs signals) s.naming t stack) :
    ∃ stack' t', optionally (fun i s => i.exec m s) init stack = .ok stack' ∧
      Sequential.execList (f.surroundings m signals) bound (lowerStart init s).1 t =
        .ok (none, t') ∧
      Sees (f.inputs signals) (lowerStart init s).2.naming t' stack' ∧ t'.driven = t.driven := by
  rcases init with _ | d | a
  · exact ⟨stack, t, rfl, by rw [lowerStart, Sequential.execList]; rfl, hsees, rfl⟩
  · exact d.exec_lower plain h.sound hsees h.place_head hplain bound
  · rw [lowerStart, ForStart.lower, Sequential.execList_singleton]
    exact a.exec_lower plain h.sound hsees hplain bound

/-- The process follows a statement from every state that is ready for it. -/
def StmtSimulated (f : Function) (m : Meaning V) (signals : String → V) (bound : Nat)
    (stmt : Stmt) : Prop :=
  ∀ (c : LoopContext) (s : Lowering), Ready f c s stmt.declarations →
    stmt.isPlain (s.naming.visible f) = true → stmt.returnsAtEnd = true →
    Simulates f m signals c stmt.hasReturn stmt.hasStrayJump s.naming (stmt.namingAfter s)
      (stmt.exec m bound)
      (Sequential.execList (f.surroundings m signals) bound (stmt.lower c.increment s).1)

/-- The same for an alternative. -/
def AlternativeSimulated (f : Function) (m : Meaning V) (signals : String → V) (bound : Nat)
    (a : Alternative) : Prop :=
  ∀ (c : LoopContext) (s : Lowering), Ready f c s a.declarations →
    a.isPlain (s.naming.visible f) = true → a.returnsAtEnd = true →
    Simulates f m signals c a.hasReturn a.hasStrayJump s.naming s.naming (a.exec m bound)
      ((a.lower c.increment s).1.exec (f.surroundings m signals) bound)

/-- The same for the statements of a body. -/
def BlockSimulated (f : Function) (m : Meaning V) (signals : String → V) (bound : Nat)
    (ss : Block) : Prop :=
  ∀ (c : LoopContext) (s : Lowering), Ready f c s (Block.declarations ss) →
    Block.isPlain ss (s.naming.visible f) = true → Block.returnsAtEnd ss = true →
    Simulates f m signals c (Block.hasReturn ss) (Block.hasStrayJump ss) s.naming
      (Block.lower c.increment ss s).2.naming (Block.exec m bound ss)
      (Sequential.execList (f.surroundings m signals) bound (Block.lower c.increment ss s).1)

variable {bound : Nat} {condition : Expr} {ss : Block} {position : Position}

/-- The names of a body that is nested are gone after it. -/
theorem BlockSimulated.nested (h : BlockSimulated f m signals bound ss) {s : Lowering}
    (ready : Ready f c s (Block.declarations ss))
    (hplain : Block.isPlain ss (s.naming.visible f) = true)
    (hreturns : Block.returnsAtEnd ss = true) :
    Simulates f m signals c (Block.hasReturn ss) (Block.hasStrayJump ss) s.naming s.naming
      (ClockedC.nested (Block.exec m bound ss))
      (Sequential.execList (f.surroundings m signals) bound
        (Block.lower c.increment ss s.push).1) := by
  have hsuffix := (Block.lower_snd ss c.increment s.push).1.suffix
  exact (h c s.push ready.push hplain hreturns).nested ready.suffix hsuffix

namespace StmtSimulated

theorem declare (plain : f.Plain) (d : Declaration) :
    StmtSimulated f m signals bound (.declare d) := by
  intro c s ready hplain _ stack t hsees
  obtain ⟨stack', t', hrun, hexec, hsees', hdriven⟩ :=
    d.exec_lower (m := m) plain ready.sound hsees ready.place_head hplain bound
  rw [Stmt.exec, Stmt.lower, hrun, hexec]
  exact .ok (.through hsees' hdriven)

theorem assign (plain : f.Plain) (a : Assignment) :
    StmtSimulated f m signals bound (.assign a) := by
  intro c s ready hplain _ stack t hsees
  obtain ⟨stack', t', hrun, hexec, hsees', hdriven⟩ :=
    a.exec_lower (m := m) plain ready.sound hsees hplain bound
  rw [Stmt.exec, Stmt.lower, Sequential.execList_singleton, hrun, hexec]
  exact .ok (.through hsees' hdriven)

theorem ret (plain : f.Plain) (value : Option Expr) :
    StmtSimulated f m signals bound (.ret value position) := by
  intro c s ready hplain _ stack t hsees
  cases value with
  | none =>
    rw [Stmt.exec, Stmt.lower, Sequential.execList]
    exact .ok (.returned rfl hsees rfl)
  | some e =>
    obtain ⟨value, hvalue, hvalue'⟩ := hsees.value (m := m) plain ready.sound hplain
    have htarget : s.naming.resultTarget = outputName := by
      rw [Naming.resultTarget, ready.sound.holdsResult]
      rfl
    have hsignal : (f.surroundings m signals).isVariable outputName = false :=
      Function.isVariable_eq_false (by decide)
    rw [Stmt.exec, Stmt.lower, Sequential.execList_singleton, Sequential.exec, htarget,
      Surroundings.drive, hsignal, hvalue]
    rw [show (f.surroundings m signals).meaning = m from rfl, hvalue']
    exact .ok (.returned rfl hsees rfl)

theorem branch (plain : f.Plain) {otherwise : Alternative}
    (hbody : BlockSimulated f m signals bound ss)
    (hother : AlternativeSimulated f m signals bound otherwise) :
    StmtSimulated f m signals bound (.branch condition ss otherwise position) := by
  intro c s ready hplain hreturns stack t hsees
  rw [Stmt.isPlain, Bool.and_eq_true, Bool.and_eq_true] at hplain
  rw [Stmt.returnsAtEnd, Bool.and_eq_true] at hreturns
  rw [Stmt.declarations] at ready
  have hfirst := hbody.nested ready.left hplain.2.1 hreturns.1
  have hsecond := hother c ⟨s.naming, s.seen + (Block.declarations ss).length⟩ ready.right
    hplain.2.2 hreturns.2
  rw [Stmt.exec, Stmt.lower, Sequential.execList_singleton, Sequential.exec, Block.lower_snd_pop]
  exact hfirst.branch plain ready.sound hplain.1 hsecond stack t hsees

theorem whileLoop (plain : f.Plain) (hbody : BlockSimulated f m signals bound ss) :
    StmtSimulated f m signals bound (.whileLoop condition ss position) := by
  intro c s ready hplain hreturns stack t hsees
  rw [Stmt.isPlain, Bool.and_eq_true] at hplain
  rw [Stmt.returnsAtEnd, Bool.and_eq_true, Bool.not_eq_true'] at hreturns
  rw [Stmt.declarations] at ready
  have hround := hbody ⟨s, none⟩ s.push (ready.enter (by simp)) hplain.2 hreturns.2
  rw [hreturns.1] at hround
  have hsuffix := (Block.lower_snd ss none s.push).1.suffix
  have hloop := Simulates.loop (c := c) plain ready.sound hplain.1 (by simp) hsuffix hround
  rw [Option.map_none, Option.toList_none, List.append_nil] at hloop
  rw [Stmt.lower, Stmt.hasReturn, Stmt.hasStrayJump, Stmt.namingAfter, hreturns.1, Stmt.exec]
  exact hloop stack t hsees

theorem forLoop (plain : f.Plain) {init : Option ForStart} {step : Option Assignment}
    (hbody : BlockSimulated f m signals bound ss) :
    StmtSimulated f m signals bound (.forLoop init condition ss step position) := by
  intro c s ready hplain hreturns stack t hsees
  rw [Stmt.isPlain, Bool.and_eq_true, Bool.and_eq_true, Bool.and_eq_true] at hplain
  rw [Stmt.returnsAtEnd, Bool.and_eq_true, Bool.not_eq_true'] at hreturns
  rw [Stmt.declarations] at ready
  obtain ⟨hready, hvisible⟩ := Ready.afterStart plain ready.push hplain.1
  obtain ⟨hinit, hinside⟩ := hplain
  rw [show s.naming.visible f = s.push.naming.visible f from rfl, ← hvisible] at hinside
  obtain ⟨hcondition, hinner, hincrement⟩ := hinside
  have hstep : ∀ a ∈ step,
      a.isPlain ((lowerStart init s.push).2.naming.visible f) = true ∧
        a.avoids (Block.declarations ss) = true := by
    intro a ha
    exact Bool.and_eq_true_iff.mp (Option.all_eq_true _ _ |>.mp hincrement a ha)
  have hround := hbody ⟨(lowerStart init s.push).2, step⟩ _ (hready.enter hstep) hinner hreturns.2
  rw [hreturns.1] at hround
  have hsuffix := (Block.lower_snd ss step (lowerStart init s.push).2.push).1.suffix
  have hloop := Simulates.loop (c := c) plain hready.sound hcondition
    (fun a ha => (hstep a ha).1) hsuffix hround
  have hwhole := (Simulates.after
    (fun _ _ hsees => exec_start plain ready.push hinit bound hsees) hloop).nested
    ready.suffix (lowerStart_snd init s.push).1.suffix
  rw [Stmt.lower_forLoop, Stmt.hasReturn, Stmt.hasStrayJump, Stmt.namingAfter, hreturns.1]
  dsimp only
  rw [Block.lower_snd_pop, Stmt.exec]
  exact hwhole stack t hsees

theorem jump (plain : f.Plain) (j : Jump) :
    StmtSimulated f m signals bound (.jump j position) := by
  intro c s ready hplain _ stack t hsees
  cases j with
  | leave =>
    rw [Stmt.exec, Stmt.lower, Jump.lower, Sequential.execList_singleton, Sequential.exec]
    exact .ok (.leave rfl (hsees.leave ready.suffix) rfl)
  | again =>
    -- the increment is repeated before the jump, and means there what it means at the loop
    have hmap : c.increment.map (Assignment.lower s.naming) =
        c.increment.map (Assignment.lower c.start.naming) :=
      Option.map_congr fun a ha => (ready.increment a ha).2.1
    obtain ⟨after, t', hrun, hexec, hsees', hdriven⟩ := exec_increment (m := m) plain ready.start
      (fun a ha => (ready.increment a ha).1) bound (hsees.leave ready.suffix)
    have hnext : Sequential.execList (f.surroundings m signals) bound [.next] t' =
        .ok (some .again, t') := by
      rw [Sequential.execList_singleton, Sequential.exec]
      rfl
    rw [Stmt.exec, Stmt.lower, Jump.lower, hmap, Sequential.execList_append, hexec]
    exact .of_ok rfl hnext (.again rfl hrun hsees' hdriven)

end StmtSimulated

namespace AlternativeSimulated

theorem none : AlternativeSimulated f m signals bound .none := by
  intro c s ready hplain _ stack t hsees
  rw [Alternative.exec, Alternative.lower, Elsewise.exec]
  exact .ok (.through hsees rfl)

theorem body (hbody : BlockSimulated f m signals bound ss) :
    AlternativeSimulated f m signals bound (.body ss) := by
  intro c s ready hplain hreturns stack t hsees
  rw [Alternative.exec, Alternative.lower, Elsewise.exec]
  exact hbody.nested ready hplain hreturns stack t hsees

theorem branch (plain : f.Plain) {otherwise : Alternative}
    (hbody : BlockSimulated f m signals bound ss)
    (hother : AlternativeSimulated f m signals bound otherwise) :
    AlternativeSimulated f m signals bound (.branch condition ss otherwise position) := by
  intro c s ready hplain hreturns stack t hsees
  rw [Alternative.isPlain, Bool.and_eq_true, Bool.and_eq_true] at hplain
  rw [Alternative.returnsAtEnd, Bool.and_eq_true] at hreturns
  rw [Alternative.declarations] at ready
  have hfirst := hbody.nested ready.left hplain.2.1 hreturns.1
  have hsecond := hother c ⟨s.naming, s.seen + (Block.declarations ss).length⟩ ready.right
    hplain.2.2 hreturns.2
  rw [Alternative.exec, Alternative.lower, Elsewise.exec, Block.lower_snd_pop]
  exact hfirst.branch plain ready.sound hplain.1 hsecond stack t hsees

end AlternativeSimulated

namespace BlockSimulated

theorem nil : BlockSimulated f m signals bound [] := by
  intro c s ready hplain hreturns stack t hsees
  rw [Block.exec, Block.lower, Sequential.execList]
  exact .ok (.through hsees rfl)

theorem cons (plain : f.Plain) {stmt : Stmt}
    (hstmt : StmtSimulated f m signals bound stmt) (hss : BlockSimulated f m signals bound ss) :
    BlockSimulated f m signals bound (stmt :: ss) := by
  intro c s ready hplain hreturns stack t hsees
  rw [Block.isPlain, Bool.and_eq_true] at hplain
  rw [Block.returnsAtEnd, Bool.and_eq_true, Bool.and_eq_true] at hreturns
  rw [Block.declarations] at ready
  obtain ⟨hnext, hvisible⟩ := Ready.stmt plain ready hplain.1
  rw [← hvisible] at hplain
  have hfirst := hstmt c s ready.left hplain.1 hreturns.1.1
  have hrest := hss c _ hnext hplain.2 hreturns.2
  have hseq := hfirst.seq hrest (by
    intro hreturn
    rw [hreturn, Bool.not_true, Bool.false_or, List.isEmpty_iff] at hreturns
    obtain ⟨⟨-, rfl⟩, -⟩ := hreturns
    rw [Block.lower]
    exact ⟨rfl, fun t => by rw [Sequential.execList]; rfl⟩)
  rw [Block.lower, Block.hasReturn, Block.hasStrayJump]
  dsimp only
  rw [Stmt.lower_snd, Block.exec, Sequential.execList_append]
  exact hseq stack t hsees

end BlockSimulated

mutual

theorem Stmt.simulates (plain : f.Plain) : ∀ stmt : Stmt, StmtSimulated f m signals bound stmt
  | .declare d => .declare plain d
  | .assign a => .assign plain a
  | .ret value _ => .ret plain value
  | .branch _ body otherwise _ => .branch plain (Block.simulates plain body)
    (Alternative.simulates plain otherwise)
  | .whileLoop _ body _ => .whileLoop plain (Block.simulates plain body)
  | .forLoop _ _ body _ _ => .forLoop plain (Block.simulates plain body)
  | .jump j _ => .jump plain j

theorem Alternative.simulates (plain : f.Plain) :
    ∀ a : Alternative, AlternativeSimulated f m signals bound a
  | .none => .none
  | .body body => .body (Block.simulates plain body)
  | .branch _ body otherwise _ => .branch plain (Block.simulates plain body)
    (Alternative.simulates plain otherwise)

theorem Block.simulates (plain : f.Plain) :
    ∀ ss : List Stmt, BlockSimulated f m signals bound ss
  | [] => .nil
  | stmt :: ss => .cons plain (Stmt.simulates plain stmt) (Block.simulates plain ss)

end

end

end ClockedC
