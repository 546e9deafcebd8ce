import ClockedC.Proofs.NumberedDesign

/-!
# Functions are written one by one

The text of a design is made of a block for each function, in order, with the library and use
clauses either before all of them or before each. A block depends on its function and on the
signatures of the functions that are called in it. What these functions do, how they name their
parameters, where they stand and which other functions there are makes no difference.

* `Function.callees` lists the names that a function calls; numbering the calls leaves them as they
  are.
* `Function.designEvents_congr`: the signatures of the callees are all that is looked up.
* `Program.interface` is what a program shows of the functions with some names.
* `Program.design_modular`: the layout of a design, and what its blocks depend on.
-/

namespace ClockedC

/-! ## Callees -/

namespace Expr

mutual

theorem callees_numberCalls : ∀ (e : Expr) (next : Nat),
    (e.numberCalls next).1.calls.map Call.callee = e.calls.map Call.callee
  | number _, _ | name _, _ => rfl
  | element _ index _, next => callees_numberCalls index next
  | call callee args (some _) _, next =>
    congrArg (callee :: ·) (calleesOfList_numberCalls args next)
  | call callee args none _, next =>
    congrArg (callee :: ·) (calleesOfList_numberCalls args (next + 1))
  | unary _ operand, next => callees_numberCalls operand next
  | binary _ left right, next => by
    simp only [numberCalls, calls, List.map_append, callees_numberCalls left,
      callees_numberCalls right]

theorem calleesOfList_numberCalls : ∀ (es : List Expr) (next : Nat),
    (callsOfList (numberCallsOfList next es).1).map Call.callee =
      (callsOfList es).map Call.callee
  | [], _ => rfl
  | e :: es, next => by
    simp only [numberCallsOfList, callsOfList, List.map_append, callees_numberCalls e,
      calleesOfList_numberCalls es]

end

end Expr

namespace Function

/-- The names of the functions that a function calls. -/
def callees (f : Function) : List String :=
  f.calls.map Call.callee

theorem callees_eq (f : Function) :
    f.callees = (Expr.callsOfList (Block.expressions f.body)).map Call.callee := by
  rw [callees, calls, Expr.callsOfList_eq_flatMap]

theorem callees_numbered (f : Function) : f.numbered.callees = f.callees := by
  have hbody : Block.expressions f.numberCalls.1.body =
      (Expr.numberCallsOfList f.firstFreeUnit (Block.expressions f.body)).1 := by
    rw [Block.expressions_numberCalls]
    rfl
  rw [f.numbered_eq_numberCalls, callees_eq, callees_eq, hbody, Expr.calleesOfList_numberCalls]

/-! ## Signatures that are looked up -/

section Congr

variable {f : Function} {signature? signature?' : String → Option Signature}
  (h : ∀ name ∈ f.callees, signature?' name = signature? name)
include h

theorem signalEvents_congr : f.signalEvents signature?' = f.signalEvents signature? := by
  have hcalls : (f.calls.map fun c => Event.line (signalLine c.wire (c.resultType signature?'))) =
      f.calls.map fun c => .line (signalLine c.wire (c.resultType signature?)) := by
    refine List.map_congr_left fun c hc => ?_
    rw [Call.resultType, Call.resultType, h c.callee (List.mem_map_of_mem hc)]
  rw [signalEvents, signalEvents, hcalls]

theorem instanceEvents_congr : f.instanceEvents signature?' = f.instanceEvents signature? := by
  have hcalls : f.calls.map (Call.events signature?' f.name) =
      f.calls.map (Call.events signature? f.name) := by
    refine List.map_congr_left fun c hc => ?_
    rw [Call.events, Call.events, h c.callee (List.mem_map_of_mem hc)]
  rw [instanceEvents, instanceEvents, List.flatMap_def, List.flatMap_def, hcalls]

/-- Of the signatures in a program, those of the callees are all that is looked up. -/
theorem designEvents_congr : f.designEvents signature?' = f.designEvents signature? := by
  rw [designEvents, designEvents, signalEvents_congr h, instanceEvents_congr h]

end Congr

end Function

/-! ## Programs -/

theorem Event.text_append (es es' : List Event) : text (es ++ es') = text es ++ text es' := by
  rw [text, text, text, List.filterMap_append, unlines, List.map_append, String.join_append]
  rfl

namespace Program

/-- What a program shows of the functions with some names: for each of them, in order, its name, the
type of its result and the types of its parameters. -/
def interface (p : Program) (names : List String) : List (String × Signature) :=
  (p.functions.filter fun g => names.contains g.name).map fun g => (g.name, g.signature)

/-- The function that a call goes to can be found in the interface. -/
theorem signature?_eq_interface (p : Program) {names : List String} {name : String}
    (h : name ∈ names) :
    p.signature? name =
      ((p.interface names).reverse.find? fun entry => entry.1 = name).map Prod.snd := by
  have hfind : (fun g : Function =>
      decide (names.contains g.name = true ∧ decide (g.name = name) = true)) =
        fun g => decide (g.name = name) := by
    funext g
    by_cases hname : g.name = name
    · simp [hname, h]
    · simp [hname]
  rw [signature?, interface, ← List.map_reverse, ← List.filter_reverse, List.find?_map,
    Option.map_map, List.find?_filter, ← hfind]
  rfl

/-- The steps of writing a function, apart from what tells that it is begun and from the library and
use clauses. -/
def blockEvents (p : Program) (f : Function) : List Event :=
  f.numbered.designEvents p.signature?

/-- The text that is written for a function. -/
def block (p : Program) (f : Function) : String :=
  Event.text (p.blockEvents f)

theorem blockEvents_eq_of_signature? {p q : Program} {f : Function}
    (h : ∀ name ∈ f.callees, q.signature? name = p.signature? name) :
    q.blockEvents f = p.blockEvents f := by
  rw [← f.callees_numbered] at h
  exact Function.designEvents_congr h

theorem blockEvents_eq_of_interface {p q : Program} {f : Function}
    (h : q.interface f.callees = p.interface f.callees) : q.blockEvents f = p.blockEvents f := by
  refine blockEvents_eq_of_signature? fun name hname => ?_
  rw [q.signature?_eq_interface hname, p.signature?_eq_interface hname, h]

/-! ## The text of a design -/

theorem text_functions {events : Function → List Event} {text : Function → String}
    (h : ∀ f, Event.text (events f) = text f) (fs : List Function) :
    Event.text (fs.flatMap events) = String.join (fs.map text) := by
  induction fs with
  | nil => rfl
  | cons f fs ih =>
    rw [List.flatMap_cons, Event.text_append, h, ih, List.map_cons, String.join_cons]

/-- The clauses come before the text of a function where each entity has them. -/
theorem text_functionEvents (preamble : Preamble) (p : Program) (f : Function) :
    Event.text (p.functionEvents preamble f) =
      (if preamble = .everyEntity then unlines preambleLines else "") ++ p.block f := by
  rw [functionEvents, Event.text_append, Event.text_append]
  cases preamble <;> rfl

theorem text_designEvents (preamble : Preamble) (p : Program) :
    Event.text (p.designEvents preamble) =
      unlines headerLines ++ (if preamble = .once then unlines preambleLines else "") ++
        String.join (p.functions.map fun f =>
          (if preamble = .everyEntity then unlines preambleLines else "") ++ p.block f) := by
  rw [designEvents, Event.text_append, Event.text_append,
    text_functions (p.text_functionEvents preamble)]
  cases preamble <;> rfl

/-- **Functions are written one by one.** A design is its header, the library and use clauses, and a
block for each function in order; or its header, and for each function the clauses and the same
block. The block of a function, and what is told while it is written, is the same in two programs if
each name that the function calls has the same signature in them, or none in both. So it is if the
programs differ in the bodies, parameter names and positions of functions only, and in the functions
that are not called. -/
theorem design_modular (p : Program) :
    Event.text (p.designEvents .once) =
      unlines headerLines ++ unlines preambleLines ++ String.join (p.functions.map p.block) ∧
    Event.text (p.designEvents .everyEntity) =
      unlines headerLines ++
        String.join (p.functions.map fun f => unlines preambleLines ++ p.block f) ∧
    (∀ (q : Program) (f : Function),
      (∀ name ∈ f.callees, q.signature? name = p.signature? name) →
        q.blockEvents f = p.blockEvents f) ∧
    ∀ (q : Program) (f : Function), q.interface f.callees = p.interface f.callees →
      q.blockEvents f = p.blockEvents f := by
  refine ⟨?_, ?_, fun q f h => blockEvents_eq_of_signature? h,
    fun q f h => blockEvents_eq_of_interface h⟩
  · rw [text_designEvents]
    simp only [reduceCtorEq, ↓reduceIte, String.empty_append]
  · rw [text_designEvents]
    simp only [reduceCtorEq, ↓reduceIte, String.append_empty]

/-- The function that is called gets another body and other names for its parameters, and stands
behind a new function. -/
theorem design_modular_new_callee :
    let g : Function := ⟨"g", .char, [⟨.int, "a"⟩, ⟨.char, "b"⟩],
      [.ret (some (.name "b")) ⟨1, 26⟩], ⟨1, 6⟩⟩
    let f : Function := ⟨"f", .int, [⟨.int, "x"⟩],
      [.ret (some (.call "g" [.name "x", .number "1"] none ⟨2, 24⟩)) ⟨2, 17⟩], ⟨2, 5⟩⟩
    let g' : Function := ⟨"g", .char, [⟨.int, "n"⟩, ⟨.char, "c"⟩],
      [.ret (some (.number "7")) ⟨3, 26⟩], ⟨3, 6⟩⟩
    let h : Function := ⟨"h", .int, [], [.ret (some (.call "f" [] none ⟨4, 18⟩)) ⟨4, 11⟩], ⟨4, 5⟩⟩
    let p : Program := ⟨[g, f]⟩
    let q : Program := ⟨[h, g', f]⟩
    f.callees = ["g"] ∧ q.interface f.callees = p.interface f.callees ∧
      q.blockEvents f = p.blockEvents f ∧
      Event.text (p.designEvents .once) =
        unlines headerLines ++ unlines preambleLines ++ (p.block g ++ p.block f) ∧
      Event.text (q.designEvents .everyEntity) =
        unlines headerLines ++ (unlines preambleLines ++ q.block h ++
          (unlines preambleLines ++ q.block g' ++ (unlines preambleLines ++ p.block f))) := by
  intro g f g' h p q
  obtain ⟨honce, -, -, hsame⟩ := design_modular p
  obtain ⟨-, hevery, -, -⟩ := design_modular q
  have hinterface : q.interface f.callees = p.interface f.callees := by decide
  have hblock := hsame q f hinterface
  refine ⟨by decide, hinterface, hblock, ?_, ?_⟩
  · rw [honce]
    simp only [p, List.map_cons, List.map_nil, String.join_cons, String.join_nil,
      String.append_empty]
  · have htext : p.block f = q.block f := congrArg Event.text hblock.symm
    rw [hevery, htext]
    simp only [q, List.map_cons, List.map_nil, String.join_cons, String.join_nil,
      String.append_empty]

end Program

end ClockedC
