import ClockedC.Design.Basic
import ClockedC.Proofs.FunctionSpelling
import ClockedC.Proofs.TextWords

/-!
# How calls are wired

Each call of a function is an instance with a label and a signal for its result. Both names are made
from the name of the function that is called and from the number of the call.

* `resultWire_inj` and `instanceLabel_inj`: the name and the number can be read back from them.
* `Function.mem_calls_of_process`: every call in the process is one of the calls of the function,
  and so is every call in an argument of one.
* `Function.CallsWired` collects what holds of the calls of every program that is read: labels and
  signals are distinct, and each call has one instance, which drives its signal.
* `Function.calls_wired` adds that each of the signals is declared once if and only if no local is
  named like one of them.
-/

namespace ClockedC

open Scan (Word)

/-! ## Names made from numbers -/

/-- The number at the end of a name, behind an underscore, can be read back. -/
theorem front_number_inj {front front' : List Char} {m n : Nat}
    (h : front ++ '_' :: (toString m).toList = front' ++ '_' :: (toString n).toList) :
    front = front' ∧ m = n := by
  have hdigits (k : Nat) (cs : List Char) :
      (cs ++ '_' :: (toString k).toList).reverse.takeWhile Char.isDigit =
        (toString k).toList.reverse := by
    have hall : ∀ c ∈ (toString k).toList.reverse, c.isDigit = true := fun c hc =>
      isDigit_of_mem_toString (List.mem_reverse.1 hc)
    have hstop : ('_' :: cs.reverse).takeWhile Char.isDigit = [] := rfl
    rw [List.reverse_append, List.reverse_cons, List.append_assoc, List.singleton_append,
      List.takeWhile_append_of_pos hall, hstop, List.append_nil]
  have hreverse := congrArg (fun cs : List Char => cs.reverse.takeWhile Char.isDigit) h
  rw [hdigits, hdigits, List.reverse_inj, Nat.toString_eq_repr, Nat.toString_eq_repr,
    Nat.toList_repr, Nat.toList_repr] at hreverse
  have hvalue := congrArg (Nat.ofDigitChars 10 · 0) hreverse
  simp only [Nat.ofDigitChars_toDigits (by decide : 1 < 10) (by decide : 10 ≤ 10)] at hvalue
  subst hvalue
  exact ⟨List.append_cancel_right h, rfl⟩

theorem resultWire_inj {callee callee' : String} {m n : Nat}
    (h : resultWire callee (some m) = resultWire callee' (some n)) : callee = callee' ∧ m = n := by
  have hlist (f : String) (k : Nat) : (resultWire f (some k)).toList =
      "call_".toList ++ (f.toList ++ '_' :: (toString k).toList) ++ "_res".toList := by
    rw [show resultWire f (some k) = "call_" ++ f ++ "_" ++ toString k ++ "_res" from rfl]
    simp only [String.toList_append, List.append_assoc]
    rfl
  have hcut := congrArg String.toList h
  rw [hlist, hlist] at hcut
  obtain ⟨hfront, hnumber⟩ :=
    front_number_inj (List.append_cancel_left (List.append_cancel_right hcut))
  exact ⟨String.toList_inj.1 hfront, hnumber⟩

/-- The label of an instance. -/
def instanceLabel (callee : String) (n : Nat) : String :=
  s!"u_{callee}_{n}"

theorem instanceLabel_inj {callee callee' : String} {m n : Nat}
    (h : instanceLabel callee m = instanceLabel callee' n) : callee = callee' ∧ m = n := by
  have hlist (f : String) (k : Nat) : (instanceLabel f k).toList =
      "u_".toList ++ (f.toList ++ '_' :: (toString k).toList) := by
    rw [show instanceLabel f k = "u_" ++ f ++ "_" ++ toString k from rfl]
    simp only [String.toList_append, List.append_assoc]
    rfl
  have hcut := congrArg String.toList h
  rw [hlist, hlist] at hcut
  obtain ⟨hfront, hnumber⟩ := front_number_inj (List.append_cancel_left hcut)
  exact ⟨String.toList_inj.1 hfront, hnumber⟩

theorem word_instanceLabel {callee : String} (h : Word callee.toList) (n : Nat) :
    Word (instanceLabel callee n).toList := by
  have hfirst : Word "u_".toList := .mk (by decide) (by decide)
  rw [show instanceLabel callee n = "u_" ++ callee ++ "_" ++ toString n from rfl]
  simp only [String.toList_append]
  exact ((hfirst.append h.all_continuesName).append (by decide)).append
    (Scan.all_continuesName_toString n)

/-- The label of the instance of a call that has a number. -/
def Call.label? (c : Call) : Option String :=
  c.unit.map (instanceLabel c.callee)

/-! ## Calls inside of calls -/

namespace Expr

theorem calls_rename (g : String → String) : ∀ e : Expr, (e.rename g).calls = e.calls
  | number _ | name _ | call .. => rfl
  | element _ index _ => index.calls_rename g
  | unary _ operand => operand.calls_rename g
  | binary _ left right => by
    rw [rename, calls, calls, left.calls_rename g, right.calls_rename g]

mutual

theorem mem_calls_of_arg : ∀ {e : Expr} {c c' : Call} {arg : Expr}, c ∈ e.calls → arg ∈ c.args →
    c' ∈ arg.calls → c' ∈ e.calls
  | element _ index _, _, _, _, hc, harg, hc' => mem_calls_of_arg (e := index) hc harg hc'
  | unary _ operand, _, _, _, hc, harg, hc' => mem_calls_of_arg (e := operand) hc harg hc'
  | binary _ left right, _, _, _, hc, harg, hc' => by
    rcases List.mem_append.1 hc with hleft | hright
    · exact List.mem_append_left _ (mem_calls_of_arg hleft harg hc')
    · exact List.mem_append_right _ (mem_calls_of_arg hright harg hc')
  | call _ args _ _, _, _, _, hc, harg, hc' => by
    rcases List.mem_cons.1 hc with rfl | hinner
    · refine List.mem_cons_of_mem _ ?_
      rw [callsOfList_eq_flatMap]
      exact List.mem_flatMap.2 ⟨_, harg, hc'⟩
    · exact List.mem_cons_of_mem _ (mem_callsOfList_of_arg hinner harg hc')

theorem mem_callsOfList_of_arg : ∀ {es : List Expr} {c c' : Call} {arg : Expr},
    c ∈ callsOfList es → arg ∈ c.args → c' ∈ arg.calls → c' ∈ callsOfList es
  | _ :: _, _, _, _, hc, harg, hc' => by
    rcases List.mem_append.1 hc with hfirst | hothers
    · exact List.mem_append_left _ (mem_calls_of_arg hfirst harg hc')
    · exact List.mem_append_right _ (mem_callsOfList_of_arg hothers harg hc')

end

end Expr

namespace Move

theorem expressions_lower (σ : Scheme) (env target : Env) (m : Move) :
    (m.lower σ env target).expressions = m.expressions.map (σ.expr env) := by
  cases m with
  | set t value => cases t <;> rfl
  | result signal value => rfl
  | test condition => rfl

end Move

namespace Function

variable (f : Function)

theorem mem_calls_of_move {m : Move} (hm : m ∈ Block.moves f.body) {e : Expr}
    (he : e ∈ m.expressions) {c : Call} (hc : c ∈ e.calls) : c ∈ f.calls := by
  rw [calls, ← Block.flatMap_moves]
  exact List.mem_flatMap.2 ⟨e, List.mem_flatMap.2 ⟨m, hm, he⟩, hc⟩

/-- Every call in the process is one of the calls of the function. -/
theorem mem_calls_of_process {m : Move} (hm : m ∈ Sequential.movesOfList f.process.clocked)
    {e : Expr} (he : e ∈ m.expressions) {c : Call} (hc : c ∈ e.calls) : c ∈ f.calls := by
  rw [Process.moves_clocked, List.mem_append, List.mem_append] at hm
  rcases hm with (hin | hbody) | hout
  · obtain ⟨v, -, rfl⟩ := List.mem_map.1 hin
    rw [List.mem_singleton.1 he] at hc
    cases hc
  · obtain ⟨m₀, hm₀, env, target, -, -, rfl⟩ := f.moves_process.sound m hbody
    rw [List.append_nil] at hm₀
    rw [Move.expressions_lower] at he
    obtain ⟨e₀, he₀, rfl⟩ := List.mem_map.1 he
    rw [Scheme.expr, Expr.calls_rename] at hc
    exact f.mem_calls_of_move hm₀ he₀ hc
  · obtain ⟨v, -, rfl⟩ := List.mem_map.1 hout
    rw [List.mem_singleton.1 he] at hc
    cases hc

theorem mem_calls_of_arg {c c' : Call} (hc : c ∈ f.calls) {arg : Expr} (harg : arg ∈ c.args)
    (hc' : c' ∈ arg.calls) : c' ∈ f.calls := by
  obtain ⟨e, he, hce⟩ := List.mem_flatMap.1 hc
  exact List.mem_flatMap.2 ⟨e, he, Expr.mem_calls_of_arg hce harg hc'⟩

end Function

/-! ## Distinct names -/

theorem filter_eq_singleton {α β : Type} [DecidableEq β] {key : α → β} {l : List α}
    (h : l.Pairwise fun a b => key a ≠ key b) {c : α} (hc : c ∈ l) :
    l.filter (fun a => key a = key c) = [c] := by
  induction h with
  | nil => cases hc
  | @cons a l ha _ ih =>
    rcases List.mem_cons.1 hc with rfl | hmem
    · have hnone : l.filter (fun b => key b = key c) = [] := by
        refine List.filter_eq_nil_iff.2 fun b hb => ?_
        simpa using (ha b hb).symm
      rw [List.filter_cons_of_pos (by simp), hnone]
    · rw [List.filter_cons_of_neg (by simpa using ha c hmem), ih hmem]

theorem filter_filterMap_eq {α β : Type} {g : α → Option β} {p : β → Bool} {q : α → Bool}
    {l : List α} (h : ∀ a ∈ l, ∀ b ∈ g a, p b = q a) :
    (l.filterMap g).filter p = (l.filter q).filterMap g := by
  induction l with
  | nil => rfl
  | cons a l ih =>
    obtain ⟨ha, hl⟩ := List.forall_mem_cons.1 h
    rw [List.filterMap_cons, List.filter_cons]
    cases hg : g a with
    | none =>
      rw [ih hl]
      split
      · rw [List.filterMap_cons_none hg]
      · rfl
    | some b =>
      rw [List.filter_cons, ha b hg, ih hl]
      split
      · rw [List.filterMap_cons_some hg]
      · rfl

namespace Program

variable {source : String} {program : Program} {f : Function}
  (h : (Program.prepare source).outcome = .ok program) (hf : f ∈ program.functions)
include h hf

theorem exists_unit_of_prepare {c : Call} (hc : c ∈ f.calls) : ∃ n, c.unit = some n := by
  have hunit : c.unit ∈ (List.range f.calls.length).map some := by
    rw [← units_of_prepare h hf]
    exact List.mem_map_of_mem hc
  obtain ⟨n, -, hn⟩ := List.mem_map.1 hunit
  exact ⟨n, hn.symm⟩

theorem pairwise_unit_of_prepare : f.calls.Pairwise fun c c' => c.unit ≠ c'.unit := by
  have hrange : ((List.range f.calls.length).map some).Pairwise (· ≠ ·) :=
    List.pairwise_map.2 (List.nodup_range.imp fun hne heq => hne (Option.some.inj heq))
  rw [← units_of_prepare h hf] at hrange
  exact List.pairwise_map.1 hrange

/-- What is named after the number of a call has a different name for each call. -/
theorem pairwise_of_unit_inj {β : Type} {key : Call → β}
    (hkey : ∀ c c' : Call, ∀ m n, c.unit = some m → c'.unit = some n → key c = key c' → m = n) :
    f.calls.Pairwise fun c c' => key c ≠ key c' := by
  refine (pairwise_unit_of_prepare h hf).imp_of_mem fun {c c'} hc hc' hne heq => hne ?_
  obtain ⟨m, hm⟩ := exists_unit_of_prepare h hf hc
  obtain ⟨n, hn⟩ := exists_unit_of_prepare h hf hc'
  rw [hm, hn, hkey c c' m n hm hn heq]

theorem pairwise_wire_of_prepare : f.calls.Pairwise fun c c' => c.wire ≠ c'.wire := by
  refine pairwise_of_unit_inj h hf fun c c' m n hm hn heq => ?_
  rw [Call.wire, Call.wire, hm, hn] at heq
  exact (resultWire_inj heq).2

theorem pairwise_label_of_prepare : f.calls.Pairwise fun c c' => c.label? ≠ c'.label? := by
  refine pairwise_of_unit_inj h hf fun c c' m n hm hn heq => ?_
  rw [Call.label?, Call.label?, hm, hn] at heq
  exact (instanceLabel_inj (Option.some.inj heq)).2

end Program

/-! ## Instances -/

/-- The lines that some events write. -/
def Event.lines (events : List Event) : List String :=
  events.filterMap line?

@[simp] theorem Event.lines_append (es es' : List Event) :
    lines (es ++ es') = lines es ++ lines es' :=
  List.filterMap_append

@[simp] theorem Event.lines_line (text : String) : lines [.line text] = [text] :=
  rfl

@[simp] theorem Event.lines_map_line (texts : List String) : lines (texts.map .line) = texts := by
  rw [lines, List.filterMap_map]
  exact List.filterMap_some

@[simp] theorem Event.lines_map_notice (notices : List Notice) :
    lines (notices.map .notice) = [] := by
  rw [lines, List.filterMap_map]
  exact List.filterMap_eq_nil_iff.2 fun _ _ => rfl

/-- An instance of an entity, with the connections of its ports. -/
def instanceLine (label callee : String) (connections : List String) : String :=
  s!"  {label}: entity work.{callee} port map( {commaSeparated connections} );"

/-- What the inputs of an instance are connected to. -/
def Call.inputs (signature : Option Signature) (c : Call) : List String :=
  ["clk", "reset"] ++
    c.args.zipIdx.map fun (arg, place) => arg.argument (paramWidth signature place)

/-- The line that instantiates a call. -/
def Call.instanceLine? (signature? : String → Option Signature) (c : Call) : Option String :=
  c.label?.map fun label =>
    instanceLine label c.callee (c.inputs (signature? c.callee) ++ [c.wire])

theorem Call.lines_events (signature? : String → Option Signature) (caller : String) (c : Call) :
    Event.lines (c.events signature? caller) = (c.instanceLine? signature?).toList := by
  unfold events instanceLine? label?
  cases c.unit with
  | none => rfl
  | some n =>
    dsimp only
    rw [Event.lines_append]
    cases signature? c.callee <;> rfl

theorem Function.lines_instanceEvents (signature? : String → Option Signature) (f : Function) :
    Event.lines (f.instanceEvents signature?) =
      f.calls.filterMap (Call.instanceLine? signature?) := by
  unfold instanceEvents
  induction f.calls with
  | nil => rfl
  | cons c cs ih =>
    rw [List.flatMap_cons, Event.lines_append, ih, Call.lines_events, List.filterMap_cons]
    cases c.instanceLine? signature? <;> rfl

/-- An instance begins with its label. -/
theorem head?_textWords_instanceLine {label : String} (h : Word label.toList) (callee : String)
    (connections : List String) :
    (textWords (instanceLine label callee connections)).head? = some label := by
  have hline : instanceLine label callee connections =
      "  " ++ (label ++ (": entity work." ++ callee ++ " port map( " ++
        commaSeparated connections ++ " );")) := by
    simp only [instanceLine, toString, String.append_assoc]
  have hblank : textWords "  " = [] := by decide
  have hstarts : startsApart (": entity work." ++ callee ++
      " port map( " ++ commaSeparated connections ++ " );") = true := by
    iterate 4 apply startsApart_append
    decide
  rw [hline, textWords_append_of_endsApart _ (by decide), hblank,
    textWords_append_of_startsApart _ hstarts, textWords_of_word h]
  rfl

/-- Each call has one instance. -/
theorem Function.filter_instanceEvents {f : Function} {signature? : String → Option Signature}
    (hlabels : f.calls.Pairwise fun c c' => c.label? ≠ c'.label?)
    (hwords : ∀ c ∈ f.calls, Word c.callee.toList) {c : Call} (hc : c ∈ f.calls) {label : String}
    (hlabel : c.label? = some label) :
    (Event.lines (f.instanceEvents signature?)).filter
        (fun line => (textWords line).head? = some label) =
      [instanceLine label c.callee (c.inputs (signature? c.callee) ++ [c.wire])] := by
  have hkey : ∀ c' ∈ f.calls, ∀ line ∈ c'.instanceLine? signature?,
      decide ((textWords line).head? = some label) = decide (c'.label? = c.label?) := by
    intro c' hc' line hline
    obtain ⟨label', hlabel', rfl⟩ := Option.map_eq_some_iff.1 hline
    obtain ⟨n, -, hn⟩ := Option.map_eq_some_iff.1 hlabel'
    have hword : Word label'.toList := hn ▸ word_instanceLabel (hwords c' hc') n
    rw [head?_textWords_instanceLine hword, hlabel, hlabel']
  rw [lines_instanceEvents, filter_filterMap_eq hkey, filter_eq_singleton hlabels hc]
  simp [Call.instanceLine?, hlabel]

/-! ## Signals -/

/-- A line declares a signal. -/
def declaresSignal (name line : String) : Bool :=
  (textWords line).take 2 = ["signal", name]

theorem declaresSignal_signal {n : String} (hn : Word n.toList) {rest : String}
    (hrest : startsApart rest = true) (name : String) :
    declaresSignal name ("  signal " ++ (n ++ rest)) = decide (n = name) := by
  have hfirst : textWords "  signal " = ["signal"] := by decide
  have hwords : textWords ("  signal " ++ (n ++ rest)) = "signal" :: n :: textWords rest := by
    rw [textWords_append_of_endsApart _ (by decide), hfirst,
      textWords_append_of_startsApart _ hrest, textWords_of_word hn]
    rfl
  simp [declaresSignal, hwords]

theorem declaresSignal_other {first word : String} (hends : endsApart first = true)
    (hfirst : textWords first = [word]) (hword : word ≠ "signal") (rest name : String) :
    declaresSignal name (first ++ rest) = false := by
  have hwords : textWords (first ++ rest) = word :: textWords rest := by
    rw [textWords_append_of_endsApart _ hends, hfirst]
    rfl
  simp [declaresSignal, hwords, hword]

theorem signalLine_eq (n : String) (type : ScalarType) :
    signalLine n type = "  signal " ++ (n ++ (" : " ++ type.vector ++ ";")) := by
  show "  signal " ++ n ++ " : " ++ type.vector ++ ";" = _
  simp only [String.append_assoc]

theorem declaresSignal_signalLine {n : String} (hn : Word n.toList) (type : ScalarType)
    (name : String) : declaresSignal name (signalLine n type) = decide (n = name) := by
  rw [signalLine_eq]
  exact declaresSignal_signal hn (startsApart_append _ (startsApart_append _ (by decide))) name

theorem arrayTypeLine_eq (n : String) (last : Int) (type : ScalarType) :
    arrayTypeLine n last type = "  type " ++ ((n ++ "_type") ++
      (" is array (0 to " ++ toString last ++ ") of " ++ type.vector ++ ";")) := by
  show "  type " ++ n ++ "_type is array (0 to " ++ toString last ++ ") of " ++ type.vector ++
    ";" = _
  simp only [String.append_assoc]
  rfl

theorem arrayConstantLine_eq (n entries : String) :
    arrayConstantLine n entries = "  constant " ++
      ((n ++ "_init") ++ (" : " ++ n ++ "_type := (" ++ entries ++ ");")) := by
  show "  constant " ++ n ++ "_init : " ++ n ++ "_type := (" ++ entries ++ ");" = _
  simp only [String.append_assoc]
  rfl

theorem arraySignalLine_eq (n contents : String) :
    arraySignalLine n contents =
      "  signal " ++ (n ++ (" : " ++ n ++ "_type" ++ contents ++ ";")) := by
  show "  signal " ++ n ++ " : " ++ n ++ "_type" ++ contents ++ ";" = _
  simp only [String.append_assoc]

theorem startsApart_arraySignal (n contents : String) :
    startsApart (" : " ++ n ++ "_type" ++ contents ++ ";") = true := by
  iterate 4 apply startsApart_append
  decide

theorem lines_arrayEvents_none (n : String) (type : ScalarType) (size : Nat) :
    Event.lines (arrayEvents n type size none) =
      [arrayTypeLine n (lastIndex size) type, arraySignalLine n ""] :=
  rfl

theorem lines_arrayEvents_some (n : String) (type : ScalarType) (size : Nat)
    (elements : List Element) :
    Event.lines (arrayEvents n type size (some elements)) =
      [arrayTypeLine n (lastIndex size) type, "  -- Array initialization",
        arrayConstantLine n (commaSeparated (initialEntries type size elements)),
        arraySignalLine n (" := " ++ n ++ "_init")] := by
  have hnotices := Event.lines_map_notice (initialNotices n size elements)
  unfold arrayEvents
  dsimp only
  rw [← List.singleton_append, Event.lines_append, Event.lines_append, hnotices]
  rfl

/-- The lines that declare a local. -/
def Declaration.lines (d : Declaration) : List String :=
  Event.lines d.events

theorem exists_declaresSignal_arrayEvents {n : String} (hn : Word n.toList) (type : ScalarType)
    (size : Nat) (init : Option (List Element)) (name : String) :
    (∃ line ∈ Event.lines (arrayEvents n type size init), declaresSignal name line = true) ↔
      n = name := by
  have htype : declaresSignal name (arrayTypeLine n (lastIndex size) type) = false := by
    rw [arrayTypeLine_eq]
    exact declaresSignal_other (by decide) (by decide : textWords "  type " = ["type"]) (by decide)
      _ name
  have hsignal (contents : String) :
      declaresSignal name (arraySignalLine n contents) = decide (n = name) := by
    rw [arraySignalLine_eq]
    exact declaresSignal_signal hn (startsApart_arraySignal n contents) name
  cases init with
  | none => simp [lines_arrayEvents_none, htype, hsignal]
  | some elements =>
    have hcomment : declaresSignal name "  -- Array initialization" = false :=
      declaresSignal_other (by decide) (by decide : textWords "  -- Array " = ["Array"]) (by decide)
        "initialization" name
    have hconstant (entries : String) :
        declaresSignal name (arrayConstantLine n entries) = false := by
      rw [arrayConstantLine_eq]
      exact declaresSignal_other (by decide) (by decide : textWords "  constant " = ["constant"])
        (by decide) _ name
    simp [lines_arrayEvents_some, htype, hcomment, hconstant, hsignal]

/-- Among the lines for a local there is one that declares its signal. -/
theorem Declaration.exists_declaresSignal {d : Declaration} (hd : Word d.name.toList)
    (name : String) : (∃ line ∈ d.lines, declaresSignal name line = true) ↔ d.name = name := by
  unfold lines events
  cases d.form with
  | scalar init => simp [declaresSignal_signalLine hd]
  | array size init => exact exists_declaresSignal_arrayEvents hd d.type size init name

/-! ## Declared signals -/

theorem mem_of_mem_firstDeclarations {taken : List String} {ds : List Declaration}
    {d : Declaration} (h : d ∈ firstDeclarations taken ds) : d ∈ ds := by
  induction ds generalizing taken with
  | nil => exact h
  | cons first ds ih =>
    rw [firstDeclarations] at h
    split at h
    · exact List.mem_cons_of_mem _ (ih h)
    · rcases List.mem_cons.1 h with rfl | hmem
      · exact List.mem_cons_self
      · exact List.mem_cons_of_mem _ (ih hmem)

/-- The type of the result of a function by its name: that of the last function of the name, and
`int` if there is none. -/
def Program.resultType (p : Program) (name : String) : ScalarType :=
  ((p.functions.filter fun f => f.name = name).getLast?.map Function.returns).getD .int

theorem Call.resultType_eq (p : Program) (c : Call) :
    c.resultType p.signature? = p.resultType c.callee := by
  have hlast : (p.functions.filter fun f => f.name = c.callee).getLast? =
      p.functions.reverse.find? fun f => f.name = c.callee := by
    rw [List.getLast?_eq_head?_reverse, ← List.filter_reverse, List.head?_filter]
  unfold Call.resultType Program.resultType Program.signature?
  rw [hlast]
  cases p.functions.reverse.find? fun f => f.name = c.callee <;> rfl

theorem resultWire_ne_heldResult (callee : String) (n : Nat) :
    resultWire callee (some n) ≠ heldResult := by
  intro h
  have hwire : (resultWire callee (some n)).toList =
      'c' :: ("all_".toList ++ (callee ++ "_" ++ toString n ++ "_res").toList) := by
    rw [show resultWire callee (some n) = "call_" ++ (callee ++ "_" ++ toString n ++ "_res") by
      simp only [resultWire, toString, String.append_assoc], String.toList_append]
    rfl
  have hfirst : heldResult.toList.head? = some 'c' := by
    rw [← h, hwire]
    rfl
  exact absurd hfirst (by decide)

namespace Function

variable {f : Function}

/-- The signals of the locals come first, and those of the calls last. -/
theorem lines_signalEvents (signature? : String → Option Signature) (f : Function) :
    Event.lines (f.signalEvents signature?) =
      f.signalDeclarations.flatMap Declaration.lines ++
        (if f.hidesOutput then [signalLine heldResult f.returns] else []) ++
        f.calls.map fun c => signalLine c.wire (c.resultType signature?) := by
  have hlocals (ds : List Declaration) :
      Event.lines (ds.flatMap Declaration.events) = ds.flatMap Declaration.lines := by
    induction ds with
    | nil => rfl
    | cons d ds ih =>
      rw [List.flatMap_cons, Event.lines_append, ih, List.flatMap_cons, Declaration.lines]
  have hcalls := Event.lines_map_line
    (f.calls.map fun c => signalLine c.wire (c.resultType signature?))
  rw [List.map_map] at hcalls
  rw [signalEvents, Event.lines_append, Event.lines_append, hlocals]
  congr 1
  congr 1
  split <;> rfl

/-- The signal of a call is declared once for the call, and once more for each local that is named
like it. -/
theorem filter_signalEvents {signature? : String → Option Signature} (hspelled : f.WellSpelled)
    (hwires : f.calls.Pairwise fun c c' => c.wire ≠ c'.wire) {c : Call} (hc : c ∈ f.calls) {n : Nat}
    (hn : c.unit = some n) :
    (Event.lines (f.signalEvents signature?)).filter (declaresSignal c.wire) =
      (f.signalDeclarations.flatMap Declaration.lines).filter (declaresSignal c.wire) ++
        [signalLine c.wire (c.resultType signature?)] := by
  have hword (c' : Call) (hc' : c' ∈ f.calls) : Word c'.wire.toList :=
    word_resultWire (hspelled.calls c' hc').1 c'.unit
  have hheld : (if f.hidesOutput then [signalLine heldResult f.returns] else []).filter
      (declaresSignal c.wire) = [] := by
    have hne : heldResult ≠ c.wire := by
      rw [Call.wire, hn]
      exact (resultWire_ne_heldResult c.callee n).symm
    have hword : Word heldResult.toList := .mk (by decide) (by decide)
    split
    · rw [List.filter_cons, declaresSignal_signalLine hword, decide_eq_false hne,
        if_neg Bool.false_ne_true, List.filter_nil]
    · rfl
  have hcalls : (f.calls.map fun c => signalLine c.wire (c.resultType signature?)).filter
      (declaresSignal c.wire) = [signalLine c.wire (c.resultType signature?)] := by
    have hkey : f.calls.filter
        (declaresSignal c.wire ∘ fun c => signalLine c.wire (c.resultType signature?)) =
          f.calls.filter fun c' => c'.wire = c.wire := by
      refine List.filter_congr fun c' hc' => ?_
      rw [Function.comp_apply, declaresSignal_signalLine (hword c' hc')]
    rw [List.filter_map, hkey, filter_eq_singleton hwires hc]
    rfl
  rw [lines_signalEvents, List.filter_append, List.filter_append, hheld, hcalls, List.append_nil]

/-- What holds of the calls of a function in a program. -/
structure CallsWired (p : Program) (f : Function) : Prop where
  /-- The signals for the results have different names. -/
  wires : (f.calls.map Call.wire).Nodup
  /-- So have the instances, and each call has one. -/
  labels : (f.calls.map Call.label?).Nodup
  labelled : ∀ c ∈ f.calls, c.label?.isSome = true
  /-- Behind the other signals there is one for each call, of the type that the last function of the
  name returns. -/
  signals : ∃ others, Event.lines (f.signalEvents p.signature?) =
    others ++ f.calls.map fun c => signalLine c.wire (p.resultType c.callee)
  /-- Under the label of a call there is one instance, whose last port is the signal of the call. -/
  instances : ∀ c ∈ f.calls, ∀ label ∈ c.label?,
    (Event.lines (f.instanceEvents p.signature?)).filter
        (fun line => (textWords line).head? = some label) =
      [instanceLine label c.callee (c.inputs (p.signature? c.callee) ++ [c.wire])]
  /-- There are no other instances. -/
  count : (Event.lines (f.instanceEvents p.signature?)).length = f.calls.length
  /-- Every call that the process uses is one of these calls. -/
  process : ∀ m ∈ Sequential.movesOfList f.process.clocked, ∀ e ∈ m.expressions,
    ∀ c ∈ e.calls, c ∈ f.calls
  /-- So is every call in an argument of one. -/
  arguments : ∀ c ∈ f.calls, ∀ arg ∈ c.args, ∀ c' ∈ arg.calls, c' ∈ f.calls

theorem callsWired_of_prepare {source : String} {program : Program}
    (h : (Program.prepare source).outcome = .ok program) (hf : f ∈ program.functions) :
    f.CallsWired program where
  wires := List.pairwise_map.2 (Program.pairwise_wire_of_prepare h hf)
  labels := List.pairwise_map.2 (Program.pairwise_label_of_prepare h hf)
  labelled c hc := by
    obtain ⟨n, hn⟩ := Program.exists_unit_of_prepare h hf hc
    rw [Call.label?, hn]
    rfl
  signals := by
    have hlines := f.lines_signalEvents program.signature?
    simp only [Call.resultType_eq] at hlines
    exact ⟨_, hlines⟩
  instances c hc label hlabel :=
    filter_instanceEvents (Program.pairwise_label_of_prepare h hf)
      (fun c' hc' => ((Program.wellSpelled_of_prepare h hf).calls c' hc').1) hc hlabel
  count := by
    rw [lines_instanceEvents, List.length_filterMap_eq_countP, List.countP_eq_length]
    intro c hc
    obtain ⟨n, hn⟩ := Program.exists_unit_of_prepare h hf hc
    rw [Call.instanceLine?, Call.label?, hn]
    rfl
  process m hm e he c hc := f.mem_calls_of_process hm he hc
  arguments c hc arg harg c' hc' := f.mem_calls_of_arg hc harg hc'

/-- **Calls are wired one by one.** In every program that is read, the calls of each function have
instances and signals of their own, and no other call is used. Each signal is declared once if and
only if no local with a signal is named like it. -/
theorem calls_wired {source : String} {program : Program}
    (h : (Program.prepare source).outcome = .ok program) (hf : f ∈ program.functions) :
    f.CallsWired program ∧
      ((∀ c ∈ f.calls, (Event.lines (f.signalEvents program.signature?)).filter
            (declaresSignal c.wire) = [signalLine c.wire (program.resultType c.callee)]) ↔
        ∀ c ∈ f.calls, ∀ d ∈ f.signalDeclarations, d.name ≠ c.wire) := by
  have hspelled := Program.wellSpelled_of_prepare h hf
  have hlines {c : Call} (hc : c ∈ f.calls) :
      (Event.lines (f.signalEvents program.signature?)).filter (declaresSignal c.wire) =
        (f.signalDeclarations.flatMap Declaration.lines).filter (declaresSignal c.wire) ++
          [signalLine c.wire (program.resultType c.callee)] := by
    obtain ⟨n, hn⟩ := Program.exists_unit_of_prepare h hf hc
    rw [← Call.resultType_eq]
    exact filter_signalEvents hspelled (Program.pairwise_wire_of_prepare h hf) hc hn
  have hnamed {c : Call} {d : Declaration} (hd : d ∈ f.signalDeclarations) :
      (∃ line ∈ d.lines, declaresSignal c.wire line = true) ↔ d.name = c.wire :=
    Declaration.exists_declaresSignal (hspelled.names d (mem_of_mem_firstDeclarations hd)) c.wire
  refine ⟨callsWired_of_prepare h hf, ?_, ?_⟩
  · intro honce c hc d hd hname
    obtain ⟨line, hline, hdeclares⟩ := (hnamed hd).2 hname
    have hnone := honce c hc
    rw [hlines hc, List.append_left_eq_self, List.filter_eq_nil_iff] at hnone
    exact hnone line (List.mem_flatMap.2 ⟨d, hd, hline⟩) hdeclares
  · intro hne c hc
    rw [hlines hc, List.append_left_eq_self, List.filter_eq_nil_iff]
    intro line hline hdeclares
    obtain ⟨d, hd, hlined⟩ := List.mem_flatMap.1 hline
    exact hne c hc d hd ((hnamed hd).1 ⟨line, hlined, hdeclares⟩)

end Function

/-- A call in an argument of another, where the name of one function is that of the other with a
number behind it. -/
theorem calls_wired_nested :
    let g₁ : Function := ⟨"g_1", .char, [], [], ⟨1, 6⟩⟩
    let g : Function :=
      ⟨"g", .int, [⟨.int, "a"⟩], [.ret (some (.name "a")) ⟨1, 31⟩], ⟨1, 20⟩⟩
    let sum (i j k : Option Nat) : Expr :=
      .binary .add (.call "g_1" [.call "g" [.name "x"] j ⟨1, 69⟩] i ⟨1, 65⟩)
        (.call "g" [.number "1"] k ⟨1, 77⟩)
    let f (i j k : Option Nat) : Function :=
      ⟨"f", .int, [⟨.int, "x"⟩], [.ret (some (sum i j k)) ⟨1, 58⟩], ⟨1, 47⟩⟩
    let numbered := f (some 0) (some 1) (some 2)
    let program : Program := ⟨[g₁, g, numbered]⟩
    (Program.prepare
      "char g_1() { } int g(int a) { return a; } int f(int x) { return g_1(g(x)) + g(1); }"
      ).outcome = .ok program ∧
    numbered.CallsWired program ∧
    numbered.calls.map Call.wire = ["call_g_1_0_res", "call_g_1_res", "call_g_2_res"] ∧
    ∀ c ∈ numbered.calls, (Event.lines (numbered.signalEvents program.signature?)).filter
      (declaresSignal c.wire) = [signalLine c.wire (program.resultType c.callee)] := by
  intro g₁ g sum f numbered program
  have hprepare : (Program.prepare
      "char g_1() { } int g(int a) { return a; } int f(int x) { return g_1(g(x)) + g(1); }"
      ).outcome = .ok program :=
    Program.outcome_prepare_eq_ok.2 ⟨⟨[g₁, g, f none none none]⟩, by with_unfolding_all rfl, rfl⟩
  have hmem : numbered ∈ program.functions := by simp [program]
  obtain ⟨hwired, honce⟩ := Function.calls_wired hprepare hmem
  have hlocals : ∀ c ∈ numbered.calls, ∀ d ∈ numbered.signalDeclarations, d.name ≠ c.wire := by
    intro c hc d hd
    cases hd
  have hwires : numbered.calls.map Call.wire =
      ["call_g_1_0_res", "call_g_1_res", "call_g_2_res"] := by decide
  exact ⟨hprepare, hwired, hwires, honce.2 hlocals⟩

/-- **A signal that is declared twice.** A local is named like the signal for the result of a
call. -/
theorem wire_declared_twice :
    ∃ (f : Function) (c : Call),
      (Program.prepare "int f(int x) { int call_g_0_res = 1; return g(x); }").outcome =
        .ok ⟨[f]⟩ ∧
      f.calls = [c] ∧
      (Event.lines (f.signalEvents (Program.mk [f]).signature?)).filter (declaresSignal c.wire) =
        ["  signal call_g_0_res : std_logic_vector(31 downto 0);",
          "  signal call_g_0_res : std_logic_vector(31 downto 0);"] := by
  let call (unit : Option Nat) : Expr := .call "g" [.name "x"] unit ⟨1, 45⟩
  let f (unit : Option Nat) : Function := ⟨"f", .int, [⟨.int, "x"⟩],
    [.declare ⟨"call_g_0_res", .int, .scalar (some (.number "1")), ⟨1, 16⟩⟩,
      .ret (some (call unit)) ⟨1, 38⟩], ⟨1, 5⟩⟩
  refine ⟨f (some 0), ⟨"g", [.name "x"], some 0, ⟨1, 45⟩⟩, ?_, rfl, ?_⟩
  · exact Program.outcome_prepare_eq_ok.2 ⟨⟨[f none]⟩, by with_unfolding_all rfl, rfl⟩
  · decide

end ClockedC
