import ClockedC.Compile

/-!
# Outputs of bounded size

A design is written line by line, and each line in pieces. An output that runs full takes a part of
a piece or nothing of it, and writing stops there. This file shows that the output then holds the
front of the whole text, wherever the lines are cut into pieces, and that it runs full exactly if
the text is too long for it.

* `Sink` is an output with limited room, and `Sink.writeAll` writes a piece to it.
* `Sink.carryOut` writes pieces and gives notices until the output is full.
* `InPieces.carryOut_eq`: pieces are delivered like the lines they are cut from.
* `Event.written_deliver`, `Event.complete_deliver_iff` and `Event.deliver_stops`: what is
  delivered.
* `compileInto_front`: what becomes of a source text in an output of any size.
-/

namespace ClockedC

/-! ## Bytes -/

/-- The bytes of a text. -/
def textBytes (text : String) : List UInt8 :=
  text.toUTF8.toList

theorem toList_loop (bytes : ByteArray) (i : Nat) (r : List UInt8) :
    ByteArray.toList.loop bytes i r = r.reverse ++ bytes.data.toList.drop i := by
  fun_induction ByteArray.toList.loop bytes i r with
  | case1 i r h ih =>
    have hi : i < bytes.data.toList.length := by rwa [Array.length_toList, ByteArray.size_data]
    have hget : bytes.get! i = bytes.data.toList[i] := getElem!_pos bytes.data i h
    rw [ih, List.drop_eq_getElem_cons hi, List.reverse_cons, List.append_assoc, hget]
    rfl
  | case2 i r h =>
    have hi : bytes.data.toList.length ≤ i := by
      rw [Array.length_toList, ByteArray.size_data]
      omega
    rw [List.drop_eq_nil_of_le hi, List.append_nil]

theorem textBytes_eq (text : String) : textBytes text = text.toByteArray.data.toList :=
  toList_loop text.toByteArray 0 []

theorem textBytes_append (a b : String) : textBytes (a ++ b) = textBytes a ++ textBytes b := by
  rw [textBytes_eq, textBytes_eq, textBytes_eq, String.toByteArray_append, ByteArray.data_append,
    Array.toList_append]

/-! ## Lines -/

namespace Event

/-- The bytes that a sequence of events writes. -/
def bytes (events : List Event) : List UInt8 :=
  textBytes (text events)

theorem bytes_nil : bytes [] = [] := by
  rw [bytes, textBytes_eq]
  rfl

theorem bytes_notice (n : Notice) (events : List Event) :
    bytes (notice n :: events) = bytes events := rfl

theorem bytes_line (t : String) (events : List Event) :
    bytes (line t :: events) = textBytes (t ++ "\n") ++ bytes events := by
  show textBytes (String.join ((t ++ "\n") :: _)) = _
  rw [String.join_cons, textBytes_append]
  rfl

theorem length_bytes_line (t : String) (events : List Event) :
    (bytes (line t :: events)).length = (textBytes (t ++ "\n")).length + (bytes events).length := by
  rw [bytes_line, List.length_append]

/-- A line that fits is taken, and the others find less room. -/
theorem deliver_line_of_le {room : Nat} {t : String} (events : List Event)
    (h : (textBytes (t ++ "\n")).length ≤ room) :
    deliver room (line t :: events) =
      ⟨textBytes (t ++ "\n") ++ (deliver (room - (textBytes (t ++ "\n")).length) events).written,
        (deliver (room - (textBytes (t ++ "\n")).length) events).log,
        (deliver (room - (textBytes (t ++ "\n")).length) events).complete⟩ :=
  if_pos h

/-- Of a line that does not fit the front is taken, and nothing after it. -/
theorem deliver_line_of_lt {room : Nat} {t : String} (events : List Event)
    (h : room < (textBytes (t ++ "\n")).length) :
    deliver room (line t :: events) = ⟨(textBytes (t ++ "\n")).take room, [], false⟩ :=
  if_neg (Nat.not_le.2 h)

/-- The output takes the front of the text. -/
theorem written_deliver (room : Nat) (events : List Event) :
    (deliver room events).written = (bytes events).take room := by
  induction events generalizing room with
  | nil => rw [bytes_nil, List.take_nil, deliver]
  | cons event events ih =>
    cases event with
    | notice n => exact ih room
    | line t =>
      rw [bytes_line]
      by_cases h : (textBytes (t ++ "\n")).length ≤ room
      · rw [deliver_line_of_le events h, List.take_append, List.take_of_length_le h, ih]
      · have hlt : room < (textBytes (t ++ "\n")).length := Nat.lt_of_not_le h
        rw [deliver_line_of_lt events hlt, List.take_append_of_le_length (Nat.le_of_lt hlt)]

/-- Everything is taken exactly if there is room for it. -/
theorem complete_deliver_iff (room : Nat) (events : List Event) :
    (deliver room events).complete = true ↔ (bytes events).length ≤ room := by
  induction events generalizing room with
  | nil =>
    rw [bytes_nil]
    exact iff_of_true rfl (Nat.zero_le room)
  | cons event events ih =>
    cases event with
    | notice n => exact ih room
    | line t =>
      rw [length_bytes_line]
      by_cases h : (textBytes (t ++ "\n")).length ≤ room
      · rw [deliver_line_of_le events h, ih]
        omega
      · rw [deliver_line_of_lt events (Nat.lt_of_not_le h)]
        constructor
        · intro hcomplete
          cases hcomplete
        · intro hle
          omega

theorem log_deliver_of_le {room : Nat} {events : List Event}
    (h : (bytes events).length ≤ room) : (deliver room events).log = log events := by
  induction events generalizing room with
  | nil => rfl
  | cons event events ih =>
    cases event with
    | notice n => exact congrArg (n :: ·) (ih h)
    | line t =>
      rw [length_bytes_line] at h
      rw [deliver_line_of_le events (by omega)]
      exact ih (by omega)

/-- An output that is too small stops inside of a line, and what is told is what comes up before
that line. -/
theorem deliver_stops {room : Nat} {events : List Event} (h : room < (bytes events).length) :
    ∃ before t after, events = before ++ line t :: after ∧ (bytes before).length ≤ room ∧
      room < (bytes (before ++ [line t])).length ∧ (deliver room events).log = log before := by
  induction events generalizing room with
  | nil =>
    rw [bytes_nil] at h
    exact absurd h (Nat.not_lt_zero room)
  | cons event events ih =>
    cases event with
    | notice n =>
      obtain ⟨before, t, after, rfl, hle, hlt, hlog⟩ := ih h
      exact ⟨notice n :: before, t, after, rfl, hle, hlt, congrArg (n :: ·) hlog⟩
    | line s =>
      by_cases hs : (textBytes (s ++ "\n")).length ≤ room
      · rw [length_bytes_line] at h
        obtain ⟨before, t, after, rfl, hle, hlt, hlog⟩ :=
          @ih (room - (textBytes (s ++ "\n")).length) (by omega)
        refine ⟨line s :: before, t, after, rfl, ?_, ?_, ?_⟩
        · rw [length_bytes_line]
          omega
        · rw [List.cons_append, length_bytes_line]
          omega
        · rw [deliver_line_of_le _ hs]
          exact hlog
      · have hlt : room < (textBytes (s ++ "\n")).length := Nat.lt_of_not_le hs
        refine ⟨[], s, events, rfl, ?_, ?_, ?_⟩
        · rw [bytes_nil]
          exact Nat.zero_le room
        · rw [List.nil_append, length_bytes_line]
          omega
        · rw [deliver_line_of_lt events hlt]
          rfl

theorem log_deliver_prefix (room : Nat) (events : List Event) :
    (deliver room events).log <+: log events := by
  by_cases h : (bytes events).length ≤ room
  · exact ⟨[], by rw [List.append_nil, log_deliver_of_le h]⟩
  · obtain ⟨before, t, after, rfl, -, -, hlog⟩ := deliver_stops (Nat.lt_of_not_le h)
    rw [hlog, log, log, List.filterMap_append]
    exact List.prefix_append _ _

end Event

/-! ## Pieces -/

/-- An output that stores bytes as long as there is room. -/
structure Sink where
  stored : List UInt8
  room : Nat

/-- What is done while a design is written: a piece of a line goes to the output, or a notice comes
up. -/
inductive OutputStep where
  | piece (bytes : List UInt8)
  | tell (notice : Notice)

namespace Sink

/-- Hands bytes to an output. It stores those it has room for, and the answer is their number. -/
def write (s : Sink) (bytes : List UInt8) : Nat × Sink :=
  (min bytes.length s.room, ⟨s.stored ++ bytes.take s.room, s.room - bytes.length⟩)

/-- Hands bytes to an output again and again until all are stored, which the answer tells, or none
is taken any more. -/
def writeAll (s : Sink) (bytes : List UInt8) : Bool × Sink :=
  if bytes = [] then (true, s)
  else if (s.write bytes).1 = 0 then (false, (s.write bytes).2)
  else (s.write bytes).2.writeAll (bytes.drop (s.write bytes).1)
termination_by bytes.length
decreasing_by
  rename_i hbytes htaken
  have hlength := List.length_pos_iff.2 hbytes
  rw [List.length_drop]
  omega

/-- Writes pieces and gives notices until a piece is not stored as a whole. -/
def carryOut (s : Sink) : List OutputStep → Delivery
  | [] => ⟨s.stored, [], true⟩
  | .tell n :: steps =>
    let rest := s.carryOut steps
    ⟨rest.written, n :: rest.log, rest.complete⟩
  | .piece bytes :: steps =>
    if (s.writeAll bytes).1 then (s.writeAll bytes).2.carryOut steps
    else ⟨(s.writeAll bytes).2.stored, [], false⟩

/-- An output stores the front of a piece. What a second call stores is nothing, because either all
bytes or all room is used up by then. -/
theorem snd_writeAll (s : Sink) (bytes : List UInt8) :
    (s.writeAll bytes).2 = ⟨s.stored ++ bytes.take s.room, s.room - bytes.length⟩ := by
  fun_induction writeAll s bytes with
  | case1 s => simp
  | case2 s bytes hbytes htaken => rfl
  | case3 s bytes hbytes htaken ih =>
    have hnone : (bytes.drop (min bytes.length s.room)).take (s.room - bytes.length) = [] := by
      rcases Nat.le_total bytes.length s.room with hle | hle
      · rw [Nat.min_eq_left hle, List.drop_length, List.take_nil]
      · rw [Nat.sub_eq_zero_of_le hle, List.take_zero]
    rw [ih]
    dsimp only [write]
    rw [hnone, List.append_nil, List.length_drop, Nat.sub_sub]
    congr 1
    omega

/-- All of a piece is stored exactly if there is room for it. -/
theorem fst_writeAll (s : Sink) (bytes : List UInt8) :
    (s.writeAll bytes).1 = true ↔ bytes.length ≤ s.room := by
  fun_induction writeAll s bytes with
  | case1 s => simp
  | case2 s bytes hbytes htaken =>
    have hlength := List.length_pos_iff.2 hbytes
    have hzero : min bytes.length s.room = 0 := htaken
    constructor
    · intro h
      cases h
    · intro h
      omega
  | case3 s bytes hbytes htaken ih =>
    rw [ih]
    dsimp only [write]
    rw [List.length_drop]
    omega

theorem carryOut_piece_of_le {s : Sink} {bytes : List UInt8} (h : bytes.length ≤ s.room)
    (steps : List OutputStep) :
    s.carryOut (.piece bytes :: steps) =
      carryOut ⟨s.stored ++ bytes, s.room - bytes.length⟩ steps := by
  rw [carryOut, if_pos ((s.fst_writeAll bytes).2 h), snd_writeAll, List.take_of_length_le h]

theorem carryOut_piece_of_lt {s : Sink} {bytes : List UInt8} (h : s.room < bytes.length)
    (steps : List OutputStep) :
    s.carryOut (.piece bytes :: steps) = ⟨s.stored ++ bytes.take s.room, [], false⟩ := by
  rw [carryOut, if_neg fun hall => Nat.not_le.2 h ((s.fst_writeAll bytes).1 hall), snd_writeAll]

/-- Pieces that fit together are stored one after the other. -/
theorem carryOut_pieces_of_le {pieces : List (List UInt8)} {s : Sink}
    (h : pieces.flatten.length ≤ s.room) (steps : List OutputStep) :
    s.carryOut (pieces.map .piece ++ steps) =
      carryOut ⟨s.stored ++ pieces.flatten, s.room - pieces.flatten.length⟩ steps := by
  induction pieces generalizing s with
  | nil => simp
  | cons piece pieces ih =>
    rw [List.flatten_cons, List.length_append] at h
    rw [List.map_cons, List.cons_append, carryOut_piece_of_le (by omega), ih (by dsimp only; omega),
      List.flatten_cons, List.length_append, List.append_assoc, Nat.sub_sub]

/-- Of pieces that do not fit together the output stores the front. -/
theorem carryOut_pieces_of_lt {pieces : List (List UInt8)} {s : Sink}
    (h : s.room < pieces.flatten.length) (steps : List OutputStep) :
    s.carryOut (pieces.map .piece ++ steps) =
      ⟨s.stored ++ pieces.flatten.take s.room, [], false⟩ := by
  induction pieces generalizing s with
  | nil => exact absurd h (Nat.not_lt_zero s.room)
  | cons piece pieces ih =>
    rw [List.flatten_cons, List.length_append] at h
    rw [List.map_cons, List.cons_append, List.flatten_cons]
    by_cases hpiece : piece.length ≤ s.room
    · rw [carryOut_piece_of_le hpiece, ih (by dsimp only; omega), List.take_append,
        List.take_of_length_le hpiece, List.append_assoc]
    · have hlt : s.room < piece.length := Nat.lt_of_not_le hpiece
      rw [carryOut_piece_of_lt hlt, List.take_append_of_le_length (Nat.le_of_lt hlt)]

end Sink

/-- Steps write the lines of some events in pieces, and give their notices in between. -/
inductive InPieces : List Event → List OutputStep → Prop
  | nil : InPieces [] []
  | notice {n : Notice} {events : List Event} {steps : List OutputStep}
      (others : InPieces events steps) : InPieces (.notice n :: events) (.tell n :: steps)
  | line {t : String} {events : List Event} {steps : List OutputStep} {pieces : List (List UInt8)}
      (cut : pieces.flatten = textBytes (t ++ "\n")) (others : InPieces events steps) :
      InPieces (.line t :: events) (pieces.map .piece ++ steps)

/-- The steps of an event that writes its line byte by byte. -/
def bytewise : Event → List OutputStep
  | .line t => ((textBytes (t ++ "\n")).map ([·])).map .piece
  | .notice n => [.tell n]

theorem inPieces_bytewise (events : List Event) : InPieces events (events.flatMap bytewise) := by
  induction events with
  | nil => exact .nil
  | cons event events ih =>
    cases event with
    | notice n => exact .notice ih
    | line t =>
      have hflatten : ((textBytes (t ++ "\n")).map ([·])).flatten = textBytes (t ++ "\n") := by
        rw [← List.flatMap_def, List.flatMap_singleton']
      exact .line hflatten ih

/-- Pieces are delivered like the lines they are cut from. -/
theorem InPieces.carryOut_eq {events : List Event} {steps : List OutputStep}
    (h : InPieces events steps) (s : Sink) :
    s.carryOut steps = ⟨s.stored ++ (Event.deliver s.room events).written,
      (Event.deliver s.room events).log, (Event.deliver s.room events).complete⟩ := by
  induction h generalizing s with
  | nil => rw [Sink.carryOut, Event.deliver, List.append_nil]
  | notice _ ih =>
    rw [Sink.carryOut, ih]
    rfl
  | @line t events steps pieces cut _ ih =>
    by_cases hfits : (textBytes (t ++ "\n")).length ≤ s.room
    · rw [Sink.carryOut_pieces_of_le (by rwa [cut]), cut, ih, Event.deliver_line_of_le events hfits,
        List.append_assoc]
    · have hlt : s.room < (textBytes (t ++ "\n")).length := Nat.lt_of_not_le hfits
      rw [Sink.carryOut_pieces_of_lt (by rwa [cut]), cut, Event.deliver_line_of_lt events hlt]

/-! ## Compiling into an output -/

theorem compileInto_of_error {preamble : Preamble} {source : String} {e : ParseError}
    (h : (compile preamble source).outcome = .error e) (room : Nat) :
    compileInto room preamble source =
      ⟨[], (compile preamble source).log, .error (.source e)⟩ := by
  rw [compileInto, h]

theorem compileInto_of_ok {preamble : Preamble} {source : String} {events : List Event}
    (h : (compile preamble source).outcome = .ok events) (room : Nat) :
    compileInto room preamble source =
      ⟨(Event.deliver room events).written,
        (compile preamble source).log ++ (Event.deliver room events).log,
        if (Event.deliver room events).complete then .ok () else .error .outputFull⟩ := by
  rw [compileInto, h]

theorem compileLog_of_ok {t : Logged (List Event)} {events : List Event}
    (h : t.outcome = .ok events) : compileLog t = t.log ++ Event.log events := by
  rw [compileLog, h]

theorem answer_eq_ok_iff {complete : Bool} :
    (if complete then .ok () else .error .outputFull : Except CompileError Unit) = .ok () ↔
      complete = true := by
  cases complete <;> simp

theorem answer_eq_outputFull_iff {complete : Bool} :
    (if complete then .ok () else .error .outputFull : Except CompileError Unit) =
      .error .outputFull ↔ ¬ complete = true := by
  cases complete <;> simp

/-- **An output of any size holds the front of the text.** If a source text cannot be read, nothing
is written and the error of reading is the answer. If it can, the output holds as many bytes of the
whole text as it has room for, and the answer is an error exactly if the text is longer. The notices
are the first ones of those that come up without a limit: all of them if the text fits, and if not
those that come up before the line at which the output runs full. None of this depends on how the
lines are cut into the pieces that are written. -/
theorem compileInto_front (room : Nat) (preamble : Preamble) (source : String) :
    (∃ e, (compile preamble source).outcome = .error e ∧
      compileInto room preamble source =
        ⟨[], compileLog (compile preamble source), .error (.source e)⟩) ∨
    ∃ events out, (compile preamble source).outcome = .ok events ∧
      compileInto room preamble source = out ∧
      out.written = (textBytes (Event.text events)).take room ∧
      (out.outcome = .ok () ↔ (textBytes (Event.text events)).length ≤ room) ∧
      (out.outcome = .error .outputFull ↔ room < (textBytes (Event.text events)).length) ∧
      out.log <+: compileLog (compile preamble source) ∧
      (out.outcome = .ok () → out.log = compileLog (compile preamble source)) ∧
      (out.outcome = .error .outputFull → ∃ before t after, events = before ++ .line t :: after ∧
        (textBytes (Event.text before)).length ≤ room ∧
        room < (textBytes (Event.text (before ++ [.line t]))).length ∧
        out.log = (compile preamble source).log ++ Event.log before) ∧
      ∀ steps, InPieces events steps →
        out = ⟨(Sink.carryOut ⟨[], room⟩ steps).written,
          (compile preamble source).log ++ (Sink.carryOut ⟨[], room⟩ steps).log,
          if (Sink.carryOut ⟨[], room⟩ steps).complete then .ok () else .error .outputFull⟩ := by
  cases h : (compile preamble source).outcome with
  | error e =>
    refine .inl ⟨e, rfl, ?_⟩
    rw [compileInto_of_error h, compileLog, h]
  | ok events =>
    have hlog := compileLog_of_ok h
    have hfits := Event.complete_deliver_iff room events
    refine .inr ⟨events, _, rfl, compileInto_of_ok h room, Event.written_deliver room events,
      answer_eq_ok_iff.trans hfits, ?_, ?_, ?_, ?_, ?_⟩
    · rw [answer_eq_outputFull_iff, hfits, Nat.not_le]
      rfl
    · rw [hlog]
      exact List.prefix_append_right_inj _ |>.2 (Event.log_deliver_prefix room events)
    · intro hok
      rw [hlog, Event.log_deliver_of_le (hfits.1 (answer_eq_ok_iff.1 hok))]
    · intro hfull
      rw [answer_eq_outputFull_iff, hfits, Nat.not_le] at hfull
      obtain ⟨before, t, after, hevents, hle, hlt, hbefore⟩ := Event.deliver_stops hfull
      exact ⟨before, t, after, hevents, hle, hlt, congrArg (_ ++ ·) hbefore⟩
    · intro steps hsteps
      rw [hsteps.carryOut_eq]
      rfl

/-- A function is written byte by byte to an output that is full inside of the first line after the
notice about the function. -/
theorem compileInto_front_function :
    let source := "int f(){}"
    let events := Program.designEvents .everyEntity ⟨[⟨"f", .int, [], [], ⟨1, 5⟩⟩]⟩
    let out := compileInto 30 .everyEntity source
    (compile .everyEntity source).outcome = .ok events ∧
      InPieces events (events.flatMap bytewise) ∧ out.outcome = .error .outputFull ∧
      out.written = (textBytes (Event.text events)).take 30 ∧
      out.written = (Sink.carryOut ⟨[], 30⟩ (events.flatMap bytewise)).written := by
  intro source events out
  have hread : (Program.ofSource "int f(){}").outcome = .ok ⟨[⟨"f", .int, [], [], ⟨1, 5⟩⟩]⟩ := by
    with_unfolding_all rfl
  have hevents : (compile .everyEntity source).outcome = .ok events :=
    Logged.outcome_bind_eq_ok.2 ⟨_, Logged.outcome_bind_eq_ok.2 ⟨_, hread, rfl⟩, rfl⟩
  have hlong : 30 < (textBytes (Event.text events)).length := by
    have hhead : (textBytes ("-- VHDL generated by cvhdl" ++ "\n")).length = 27 := by
      rw [textBytes_eq]
      rfl
    have hlibrary : (textBytes ("library IEEE;" ++ "\n")).length = 14 := by
      rw [textBytes_eq]
      rfl
    show 30 < (Event.bytes (.line "-- VHDL generated by cvhdl" :: .line "" ::
      .notice (.entityStarted "f") :: .line "library IEEE;" :: _)).length
    rw [Event.length_bytes_line, Event.length_bytes_line, Event.bytes_notice,
      Event.length_bytes_line, hhead, hlibrary]
    omega
  have hpieces := inPieces_bytewise events
  rcases compileInto_front 30 .everyEntity source with
    ⟨e, he, -⟩ | ⟨events', out', hevents', hout, hwritten, -, hfull, -, -, -, hsame⟩
  · rw [hevents] at he
    cases he
  · rw [hevents] at hevents'
    cases hevents'
    cases hout
    exact ⟨hevents, hpieces, hfull.2 hlong, hwritten,
      congrArg Transfer.written (hsame _ hpieces)⟩

end ClockedC
