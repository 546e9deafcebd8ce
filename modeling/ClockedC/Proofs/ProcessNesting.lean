import ClockedC.Proofs.NumberedDesign
import ClockedC.Proofs.Printable

/-!
# How the blocks of a process are nested

A branch or a loop in a process begins with one line and ends with another, and what stands between
them is one step further to the right. This file goes through the lines of a process by their text
alone, with a stack of the blocks that are open, and shows that they fit together.

* `LineKind.ofText` says what a line is by its first and last words.
* `LineKind.next` says where each kind of line may stand, how far to the right it has to stand, and
  which blocks are open behind it.
* `nestingRun` goes through some lines.
* `Sequential.nestingRun_linesOfList`: the lines of statements leave open what was open before.
* `Function.process_nested`: every jump of a function that is read is in a loop, and the lines of
  its process are well nested.
-/

namespace ClockedC

open Scan (Word)

/-! ## Jumps in a body -/

mutual

/-- The count of loops around each jump in a statement, if there are `loops` around the
statement. -/
def Stmt.jumpDepths (loops : Nat) : Stmt → List Nat
  | .branch _ body otherwise _ => Block.jumpDepths loops body ++ otherwise.jumpDepths loops
  | .whileLoop _ body _ => Block.jumpDepths (loops + 1) body
  | .forLoop _ _ body _ _ => Block.jumpDepths (loops + 1) body
  | .jump .. => [loops]
  | .declare _ | .assign _ | .ret .. => []

/-- The count of loops around each jump in an alternative. -/
def Alternative.jumpDepths (loops : Nat) : Alternative → List Nat
  | .none => []
  | .body body => Block.jumpDepths loops body
  | .branch _ body otherwise _ => Block.jumpDepths loops body ++ otherwise.jumpDepths loops

/-- The count of loops around each jump in a body. -/
def Block.jumpDepths (loops : Nat) : List Stmt → List Nat
  | [] => []
  | s :: ss => s.jumpDepths loops ++ Block.jumpDepths loops ss

end

mutual

theorem Stmt.pos_of_mem_jumpDepths : ∀ (s : Stmt) {loops : Nat},
    (loops = 0 → s.hasStrayJump = false) → ∀ n ∈ s.jumpDepths loops, 0 < n
  | .branch _ body otherwise _, loops, h => by
    refine List.forall_mem_append.2 ⟨?_, ?_⟩
    · exact Block.pos_of_mem_jumpDepths body fun hzero => (Bool.or_eq_false_iff.1 (h hzero)).1
    · exact otherwise.pos_of_mem_jumpDepths fun hzero => (Bool.or_eq_false_iff.1 (h hzero)).2
  | .whileLoop _ body _, loops, _ =>
    Block.pos_of_mem_jumpDepths body fun hzero => absurd hzero (Nat.succ_ne_zero loops)
  | .forLoop _ _ body _ _, loops, _ =>
    Block.pos_of_mem_jumpDepths body fun hzero => absurd hzero (Nat.succ_ne_zero loops)
  | .jump .., loops, h => by
    refine List.forall_mem_singleton.2 (Nat.pos_of_ne_zero fun hzero => ?_)
    exact Bool.noConfusion (h hzero)
  | .declare _, _, _ | .assign _, _, _ | .ret .., _, _ => List.forall_mem_nil _

theorem Alternative.pos_of_mem_jumpDepths : ∀ (a : Alternative) {loops : Nat},
    (loops = 0 → a.hasStrayJump = false) → ∀ n ∈ a.jumpDepths loops, 0 < n
  | .none, _, _ => List.forall_mem_nil _
  | .body body, _, h => Block.pos_of_mem_jumpDepths body h
  | .branch _ body otherwise _, loops, h => by
    refine List.forall_mem_append.2 ⟨?_, ?_⟩
    · exact Block.pos_of_mem_jumpDepths body fun hzero => (Bool.or_eq_false_iff.1 (h hzero)).1
    · exact otherwise.pos_of_mem_jumpDepths fun hzero => (Bool.or_eq_false_iff.1 (h hzero)).2

/-- Where no jump is stray, every jump is in a loop. -/
theorem Block.pos_of_mem_jumpDepths : ∀ (ss : List Stmt) {loops : Nat},
    (loops = 0 → Block.hasStrayJump ss = false) → ∀ n ∈ Block.jumpDepths loops ss, 0 < n
  | [], _, _ => List.forall_mem_nil _
  | s :: ss, loops, h => by
    refine List.forall_mem_append.2 ⟨?_, ?_⟩
    · exact s.pos_of_mem_jumpDepths fun hzero => (Bool.or_eq_false_iff.1 (h hzero)).1
    · exact Block.pos_of_mem_jumpDepths ss fun hzero => (Bool.or_eq_false_iff.1 (h hzero)).2

end

mutual

theorem Stmt.hasStrayJump_numberCalls : ∀ (s : Stmt) (next : Nat),
    (s.numberCalls next).1.hasStrayJump = s.hasStrayJump
  | .branch _ body otherwise _, next => by
    simp only [Stmt.numberCalls, Stmt.hasStrayJump, Block.hasStrayJump_numberCalls body,
      otherwise.hasStrayJump_numberCalls]
  | .declare _, _ | .assign _, _ | .ret .., _ | .whileLoop .., _ | .forLoop .., _
  | .jump .., _ => rfl

theorem Alternative.hasStrayJump_numberCalls : ∀ (a : Alternative) (next : Nat),
    (a.numberCalls next).1.hasStrayJump = a.hasStrayJump
  | .none, _ => rfl
  | .body body, next => Block.hasStrayJump_numberCalls body next
  | .branch _ body otherwise _, next => by
    simp only [Alternative.numberCalls, Alternative.hasStrayJump,
      Block.hasStrayJump_numberCalls body, otherwise.hasStrayJump_numberCalls]

theorem Block.hasStrayJump_numberCalls : ∀ (ss : List Stmt) (next : Nat),
    Block.hasStrayJump (Block.numberCalls next ss).1 = Block.hasStrayJump ss
  | [], _ => rfl
  | s :: ss, next => by
    simp only [Block.numberCalls, Block.hasStrayJump, s.hasStrayJump_numberCalls,
      Block.hasStrayJump_numberCalls ss]

end

/-! ## Jumps in a process -/

mutual

/-- Whether a sequential statement holds a jump that no loop of it surrounds. -/
def Sequential.hasStrayJump : Sequential → Bool
  | .branch _ body otherwise => Sequential.hasStrayJumpIn body || otherwise.hasStrayJump
  | .exit | .next => true
  | .setVariable .. | .setSignal .. | .setResult .. | .loop .. => false

/-- Whether the rest of a branch holds a jump that no loop of it surrounds. -/
def Elsewise.hasStrayJump : Elsewise → Bool
  | .none => false
  | .body body => Sequential.hasStrayJumpIn body
  | .branch _ body otherwise => Sequential.hasStrayJumpIn body || otherwise.hasStrayJump

/-- Whether some statements hold a jump that no loop of them surrounds. -/
def Sequential.hasStrayJumpIn : List Sequential → Bool
  | [] => false
  | s :: ss => s.hasStrayJump || Sequential.hasStrayJumpIn ss

end

theorem Sequential.hasStrayJumpIn_append (ss ss' : List Sequential) :
    hasStrayJumpIn (ss ++ ss') = (hasStrayJumpIn ss || hasStrayJumpIn ss') := by
  induction ss with
  | nil => rfl
  | cons s ss ih => rw [List.cons_append, hasStrayJumpIn, hasStrayJumpIn, ih, Bool.or_assoc]

theorem Assignment.hasStrayJump_lower (a : Assignment) (n : Naming) :
    (a.lower n).hasStrayJump = false := by
  unfold lower
  dsimp only
  split
  · split <;> rfl
  · rfl

theorem Declaration.hasStrayJumpIn_lower (d : Declaration) (s : Lowering) :
    Sequential.hasStrayJumpIn (d.lower s).1 = false := by
  unfold lower
  cases d.form with
  | array size init => rfl
  | scalar init =>
    cases init with
    | none => rfl
    | some e =>
      cases hbind : s.naming.bind s.seen with
      | mk v naming => cases v <;> simp [Sequential.hasStrayJumpIn, Sequential.hasStrayJump]

theorem ForStart.hasStrayJumpIn_lower (i : ForStart) (s : Lowering) :
    Sequential.hasStrayJumpIn (i.lower s).1 = false := by
  cases i with
  | declare d => exact d.hasStrayJumpIn_lower s
  | assign a => simp [lower, Sequential.hasStrayJumpIn, a.hasStrayJump_lower]

theorem Jump.hasStrayJumpIn_lower (j : Jump) (increment : Option Assignment) (n : Naming) :
    Sequential.hasStrayJumpIn (j.lower increment n) = true := by
  cases j with
  | leave => rfl
  | again =>
    rw [lower, Sequential.hasStrayJumpIn_append]
    exact Bool.or_true _

mutual

theorem Stmt.hasStrayJumpIn_lower : ∀ (stmt : Stmt) (increment : Option Assignment) (s : Lowering),
    Sequential.hasStrayJumpIn (stmt.lower increment s).1 = stmt.hasStrayJump
  | .declare d, _, s => d.hasStrayJumpIn_lower s
  | .assign a, _, s => by
    simp [Stmt.lower, Sequential.hasStrayJumpIn, a.hasStrayJump_lower, Stmt.hasStrayJump]
  | .ret none _, _, _ => rfl
  | .ret (some _) _, _, _ => rfl
  | .branch condition body otherwise _, increment, s => by
    simp only [Stmt.lower, Sequential.hasStrayJumpIn, Sequential.hasStrayJump, Bool.or_false,
      Block.hasStrayJumpIn_lower body, otherwise.hasStrayJump_lower, Stmt.hasStrayJump]
  | .whileLoop .., _, _ => rfl
  | .forLoop none _ _ _ _, _, _ => rfl
  | .forLoop (some init) condition body step _, increment, s => by
    simp only [Stmt.lower, Sequential.hasStrayJumpIn_append, init.hasStrayJumpIn_lower]
    rfl
  | .jump jump _, increment, s => jump.hasStrayJumpIn_lower increment s.naming

theorem Alternative.hasStrayJump_lower :
    ∀ (a : Alternative) (increment : Option Assignment) (s : Lowering),
    (a.lower increment s).1.hasStrayJump = a.hasStrayJump
  | .none, _, _ => rfl
  | .body body, increment, s => Block.hasStrayJumpIn_lower body increment s.push
  | .branch condition body otherwise _, increment, s => by
    simp only [Alternative.lower, Elsewise.hasStrayJump, Block.hasStrayJumpIn_lower body,
      otherwise.hasStrayJump_lower, Alternative.hasStrayJump]

/-- The jumps of a body that no loop surrounds are those of its statements. -/
theorem Block.hasStrayJumpIn_lower :
    ∀ (ss : List Stmt) (increment : Option Assignment) (s : Lowering),
    Sequential.hasStrayJumpIn (Block.lower increment ss s).1 = Block.hasStrayJump ss
  | [], _, _ => rfl
  | stmt :: ss, increment, s => by
    simp only [Block.lower, Sequential.hasStrayJumpIn_append, stmt.hasStrayJumpIn_lower,
      Block.hasStrayJumpIn_lower ss, Block.hasStrayJump]

end

/-! ## Kinds of lines -/

/-- A block that is open. Of a branch it is known whether its last part has begun, which runs where
all conditions fail. -/
inductive OpenBlock where
  | branch (inElse : Bool)
  | loop
deriving DecidableEq, Repr

/-- Whether a block is a loop. -/
def OpenBlock.isLoop : OpenBlock → Bool
  | branch _ => false
  | loop => true

/-- What a line of a process is. -/
inductive LineKind where
  /-- `if ... then` -/
  | openBranch
  /-- `elsif ... then` -/
  | nextCase
  /-- `else` -/
  | lastCase
  /-- `end if;` -/
  | closeBranch
  /-- `while ... loop` -/
  | openLoop
  /-- `end loop;` -/
  | closeLoop
  /-- `exit;` or `next;` -/
  | jump
  | plain
deriving DecidableEq, Repr

/-- Whether a text has some characters at its front and some at its end. -/
def framed (first last text : String) : Bool :=
  first.toList.isPrefixOf text.toList && last.toList.isSuffixOf text.toList

namespace LineKind

/-- What a line is by its text. -/
def ofText (text : String) : LineKind :=
  if framed "if " " then" text then openBranch
  else if framed "elsif " " then" text then nextCase
  else if framed "while " " loop" text then openLoop
  else if text = "else" then lastCase
  else if text = "end if;" then closeBranch
  else if text = "end loop;" then closeLoop
  else if text = "exit;" ∨ text = "next;" then jump
  else plain

/-- Whether a line may stand inside of some open blocks, the innermost of which comes first. If so,
how many blocks it stands in, and which blocks are open behind it. The lines between the parts of a
block and those at its end do not stand in the block. -/
def next : LineKind → List OpenBlock → Option (Nat × List OpenBlock)
  | openBranch, bs => some (bs.length, .branch false :: bs)
  | nextCase, .branch false :: bs => some (bs.length, .branch false :: bs)
  | lastCase, .branch false :: bs => some (bs.length, .branch true :: bs)
  | closeBranch, .branch _ :: bs => some (bs.length, bs)
  | openLoop, bs => some (bs.length, .loop :: bs)
  | closeLoop, .loop :: bs => some (bs.length, bs)
  | jump, bs => if bs.any OpenBlock.isLoop then some (bs.length, bs) else none
  | plain, bs => some (bs.length, bs)
  | _, _ => none

end LineKind

theorem framed_append (first last text : String) :
    framed first last (first ++ text ++ last) = true := by
  rw [framed, Bool.and_eq_true, List.isPrefixOf_iff_prefix, List.isSuffixOf_iff_suffix,
    String.toList_append, String.toList_append, List.append_assoc]
  exact ⟨List.prefix_append _ _, List.suffix_append_of_suffix (List.suffix_append _ _)⟩

/-- Two texts that begin with different characters. -/
theorem framed_eq_false_of_head {first last text : String}
    (h : first.toList.head? ≠ text.toList.head?) (hfirst : first ≠ "") :
    framed first last text = false := by
  refine Bool.eq_false_iff.2 fun hframed => ?_
  have hprefix := List.isPrefixOf_iff_prefix.1 (Bool.and_eq_true_iff.1 hframed).1
  obtain ⟨rest, hrest⟩ := hprefix
  cases hlist : first.toList with
  | nil => exact hfirst (String.toList_inj.1 hlist)
  | cons c cs =>
    rw [hlist] at h hrest
    rw [← hrest] at h
    exact h rfl

/-- Two texts that end in different characters. -/
theorem framed_eq_false_of_last {first last text : String}
    (h : last.toList.getLast? ≠ text.toList.getLast?) (hlast : last ≠ "") :
    framed first last text = false := by
  refine Bool.eq_false_iff.2 fun hframed => ?_
  have hsuffix := List.isSuffixOf_iff_suffix.1 (Bool.and_eq_true_iff.1 hframed).2
  obtain ⟨front, hfront⟩ := hsuffix
  rw [← hfront, List.getLast?_append] at h
  cases hlist : last.toList.getLast? with
  | none => exact hlast (String.toList_inj.1 (List.getLast?_eq_none_iff.1 hlist))
  | some c =>
    rw [hlist] at h
    exact h rfl

namespace LineKind

theorem ofText_if (condition : String) :
    ofText ("if " ++ condition ++ " then") = openBranch :=
  if_pos (framed_append _ _ _)

theorem head?_append {a : String} (b c : String) {x : Char} (h : a.toList.head? = some x) :
    (a ++ b ++ c).toList.head? = some x := by
  rw [String.toList_append, String.toList_append, List.append_assoc, List.head?_append, h]
  rfl

theorem ofText_elsif (condition : String) :
    ofText ("elsif " ++ condition ++ " then") = nextCase := by
  have hhead := head?_append condition " then" (by decide : "elsif ".toList.head? = some 'e')
  have hif : framed "if " " then" ("elsif " ++ condition ++ " then") = false :=
    framed_eq_false_of_head (by rw [hhead]; decide) (by decide)
  rw [ofText, hif, framed_append]
  rfl

theorem ofText_while (condition : String) :
    ofText ("while " ++ condition ++ " loop") = openLoop := by
  have hhead := head?_append condition " loop" (by decide : "while ".toList.head? = some 'w')
  have hif : framed "if " " then" ("while " ++ condition ++ " loop") = false :=
    framed_eq_false_of_head (by rw [hhead]; decide) (by decide)
  have helsif : framed "elsif " " then" ("while " ++ condition ++ " loop") = false :=
    framed_eq_false_of_head (by rw [hhead]; decide) (by decide)
  rw [ofText, hif, helsif, framed_append]
  rfl

/-- A line with a semicolon at its end neither ends a block nor jumps, unless it is one of four. -/
theorem ofText_eq_plain {text : String} (hlast : text.toList.getLast? = some ';')
    (h : text ∉ ["end if;", "end loop;", "exit;", "next;"]) : ofText text = plain := by
  have hthen (first : String) : framed first " then" text = false :=
    framed_eq_false_of_last (by rw [hlast]; decide) (by decide)
  have hloop : framed "while " " loop" text = false :=
    framed_eq_false_of_last (by rw [hlast]; decide) (by decide)
  have helse : text ≠ "else" := by
    rintro rfl
    exact absurd hlast (by decide)
  simp only [List.mem_cons, List.not_mem_nil, or_false, not_or] at h
  simp [ofText, hthen, hloop, helse, h]

theorem ofText_assignment {a arrow b : String} (harrow : '=' ∈ arrow.toList) :
    ofText (a ++ arrow ++ b ++ ";") = plain := by
  have hmem : '=' ∈ (a ++ arrow ++ b ++ ";").toList := by
    simp only [String.toList_append, List.mem_append]
    exact .inl (.inl (.inr harrow))
  refine ofText_eq_plain ?_ fun h => ?_
  · rw [String.toList_append, List.getLast?_append]
    rfl
  · have hfixed : ∀ text ∈ ["end if;", "end loop;", "exit;", "next;"], '=' ∉ text.toList := by
      decide
    exact hfixed _ h hmem

end LineKind

/-! ## Going through the lines -/

/-- The count of blanks at the front of a line. -/
def leadingBlanks (line : String) : Nat :=
  (line.toList.takeWhile (· == ' ')).length

/-- A line without the blanks at its front. -/
def withoutIndent (line : String) : String :=
  String.ofList (line.toList.dropWhile (· == ' '))

/-- The blocks that are open behind a line, if it may stand where it does and stands two blanks to
the right for each block around it, and for each of `base` blocks around all lines. -/
def nestingStep (base : Nat) (bs : List OpenBlock) (line : String) : Option (List OpenBlock) :=
  ((LineKind.ofText (withoutIndent line)).next bs).bind fun r =>
    if leadingBlanks line = 2 * (base + r.1) then some r.2 else none

/-- The blocks that are open behind some lines, if all of them stand where they may. -/
def nestingRun (base : Nat) (bs : List OpenBlock) (lines : List String) :
    Option (List OpenBlock) :=
  lines.foldlM (nestingStep base) bs

/-- Whether a text begins with something else than a blank. -/
def isFlush (text : String) : Bool :=
  text.toList.head?.any (· != ' ')

theorem isFlush_append {a : String} (b : String) (h : isFlush a = true) :
    isFlush (a ++ b) = true := by
  unfold isFlush at h ⊢
  rw [String.toList_append, List.head?_append]
  cases hhead : a.toList.head? with
  | none =>
    rw [hhead] at h
    cases h
  | some c =>
    rw [hhead] at h
    exact h

theorem isFlush_of_word {text : String} (h : Word text.toList) : isFlush text = true := by
  unfold isFlush
  generalize text.toList = cs at h ⊢
  cases h with
  | mk first others =>
    refine bne_iff_ne.2 ?_
    rintro rfl
    exact absurd first (by decide)

theorem takeWhile_indented {text : String} (h : isFlush text = true) (depth : Nat) :
    (indented depth text).toList.takeWhile (· == ' ') = List.replicate (2 * depth) ' ' ∧
      (indented depth text).toList.dropWhile (· == ' ') = text.toList := by
  have hblank : ∀ c ∈ List.replicate (2 * depth) ' ', (c == ' ') = true := by
    intro c hc
    rw [(List.mem_replicate.1 hc).2]
    rfl
  unfold isFlush at h
  rw [indented, String.toList_append, String.toList_ofList,
    List.takeWhile_append_of_pos hblank, List.dropWhile_append_of_pos hblank]
  cases hlist : text.toList with
  | nil =>
    rw [hlist] at h
    cases h
  | cons c cs =>
    have hc : (c == ' ') = false := by
      rw [hlist] at h
      simpa using h
    rw [List.takeWhile_cons_of_neg (by simpa using hc),
      List.dropWhile_cons_of_neg (by simpa using hc), List.append_nil]
    exact ⟨rfl, rfl⟩

/-- A line that may stand where it does. -/
theorem nestingStep_indented {base depth : Nat} {bs bs' : List OpenBlock} {text : String}
    {kind : LineKind} (hflush : isFlush text = true) (hkind : LineKind.ofText text = kind)
    (h : kind.next bs = some (depth, bs')) :
    nestingStep base bs (indented (base + depth) text) = some bs' := by
  obtain ⟨htake, hdrop⟩ := takeWhile_indented hflush (base + depth)
  rw [nestingStep, leadingBlanks, withoutIndent, htake, hdrop, String.ofList_toList, hkind, h,
    List.length_replicate]
  exact if_pos rfl

theorem nestingRun_cons {base : Nat} {bs bs' : List OpenBlock} {line : String}
    (h : nestingStep base bs line = some bs') (lines : List String) :
    nestingRun base bs (line :: lines) = nestingRun base bs' lines := by
  rw [nestingRun, List.foldlM_cons, h]
  rfl

theorem nestingRun_append {base : Nat} {bs bs' : List OpenBlock} {lines : List String}
    (h : nestingRun base bs lines = some bs') (lines' : List String) :
    nestingRun base bs (lines ++ lines') = nestingRun base bs' lines' := by
  rw [nestingRun, List.foldlM_append]
  rw [nestingRun] at h
  rw [h]
  rfl

/-! ## The lines of statements -/

theorem nestingRun_assignment {arrow : String} (harrow : '=' ∈ arrow.toList) {target : Expr}
    (htarget : isFlush target.vhdl = true) (value : Expr) (base : Nat) (bs : List OpenBlock) :
    nestingRun base bs
      [indented (base + bs.length) (target.vhdl ++ arrow ++ value.vhdl ++ ";")] = some bs := by
  have hflush : isFlush (target.vhdl ++ arrow ++ value.vhdl ++ ";") = true :=
    isFlush_append _ (isFlush_append _ (isFlush_append _ htarget))
  exact nestingRun_cons (nestingStep_indented hflush (LineKind.ofText_assignment harrow) rfl) []

section

variable (base : Nat) (bs : List OpenBlock) (condition : String)

theorem nestingStep_if :
    nestingStep base bs (indented (base + bs.length) ("if " ++ condition ++ " then")) =
      some (.branch false :: bs) :=
  nestingStep_indented (isFlush_append _ (isFlush_append _ (by decide)))
    (LineKind.ofText_if condition) rfl

theorem nestingStep_elsif :
    nestingStep base (.branch false :: bs)
      (indented (base + bs.length) ("elsif " ++ condition ++ " then")) =
      some (.branch false :: bs) :=
  nestingStep_indented (isFlush_append _ (isFlush_append _ (by decide)))
    (LineKind.ofText_elsif condition) rfl

theorem nestingStep_while :
    nestingStep base bs (indented (base + bs.length) ("while " ++ condition ++ " loop")) =
      some (.loop :: bs) :=
  nestingStep_indented (isFlush_append _ (isFlush_append _ (by decide)))
    (LineKind.ofText_while condition) rfl

theorem nestingStep_else :
    nestingStep base (.branch false :: bs) (indented (base + bs.length) "else") =
      some (.branch true :: bs) :=
  nestingStep_indented (by decide) (by decide : LineKind.ofText "else" = .lastCase) rfl

theorem nestingStep_endIf (inElse : Bool) :
    nestingStep base (.branch inElse :: bs) (indented (base + bs.length) "end if;") = some bs :=
  nestingStep_indented (by decide) (by decide : LineKind.ofText "end if;" = .closeBranch) rfl

theorem nestingStep_endLoop :
    nestingStep base (.loop :: bs) (indented (base + bs.length) "end loop;") = some bs :=
  nestingStep_indented (by decide) (by decide : LineKind.ofText "end loop;" = .closeLoop) rfl

theorem nestingStep_jump {text : String} (htext : text ∈ ["exit;", "next;"])
    (hloop : bs.any OpenBlock.isLoop ≠ false) :
    nestingStep base bs (indented (base + bs.length) text) = some bs := by
  have hfixed : ∀ text ∈ ["exit;", "next;"],
      isFlush text = true ∧ LineKind.ofText text = .jump := by decide
  obtain ⟨hflush, hkind⟩ := hfixed text htext
  exact nestingStep_indented hflush hkind (if_pos (eq_true_of_ne_false hloop))

end

/-- What is assigned to begins with a word. -/
theorem Target.isFlush_vhdl {t : Target} (h : t.expr.Spelled) : isFlush t.expr.vhdl = true := by
  cases t with
  | name n => exact isFlush_of_word h
  | element base index text =>
    exact isFlush_append _ (isFlush_append _ (isFlush_append _ (isFlush_of_word h.1)))

mutual

theorem Sequential.nestingRun_lines : ∀ (s : Sequential) (base : Nat) (bs : List OpenBlock),
    (∀ m ∈ s.moves, m.Spelled) → (bs.any OpenBlock.isLoop = false → s.hasStrayJump = false) →
    nestingRun base bs (s.lines (base + bs.length)) = some bs
  | .setVariable n value, base, bs, h, _ => by
    have hn := (List.forall_mem_cons.1 (List.forall_mem_singleton.1 h)).1
    have hflush : isFlush (Expr.name n).vhdl = true := isFlush_of_word hn
    exact nestingRun_assignment (by decide : '=' ∈ " := ".toList) hflush value base bs
  | .setSignal target value, base, bs, h, _ => by
    have htarget := (List.forall_mem_cons.1 (List.forall_mem_singleton.1 h)).1
    have hline := nestingRun_assignment (by decide : '=' ∈ " <= ".toList)
      (Target.isFlush_vhdl htarget) value base bs
    rw [target.vhdl_expr] at hline
    exact hline
  | .setResult signal value, base, bs, h, _ => by
    have hsignal := (List.forall_mem_cons.1 (List.forall_mem_singleton.1 h)).1
    have hflush : isFlush (Expr.name signal).vhdl = true := isFlush_of_word hsignal
    exact nestingRun_assignment (by decide : '=' ∈ " <= ".toList) hflush value base bs
  | .branch condition body otherwise, base, bs, h, hjumps => by
    obtain ⟨hbody, hotherwise⟩ := List.forall_mem_append.1 (List.forall_mem_cons.1 h).2
    have hfirst := nestingStep_if base bs condition.vhdlCondition
    have hrun := Sequential.nestingRun_linesOfList body base (.branch false :: bs) hbody
      fun hloop => (Bool.or_eq_false_iff.1 (hjumps hloop)).1
    obtain ⟨inElse, hrest⟩ := otherwise.nestingRun_lines base bs hotherwise
      fun hloop => (Bool.or_eq_false_iff.1 (hjumps hloop)).2
    have hlast := nestingStep_endIf base bs inElse
    rw [Sequential.lines, List.append_assoc, List.cons_append]
    exact (nestingRun_cons hfirst _).trans ((nestingRun_append hrun _).trans
      ((nestingRun_append hrest _).trans (nestingRun_cons hlast [])))
  | .loop condition body, base, bs, h, _ => by
    have hfirst := nestingStep_while base bs condition.vhdlCondition
    have hrun := Sequential.nestingRun_linesOfList body base (.loop :: bs)
      (List.forall_mem_cons.1 h).2 fun hloop => Bool.noConfusion hloop
    have hlast := nestingStep_endLoop base bs
    rw [Sequential.lines, List.cons_append]
    exact (nestingRun_cons hfirst _).trans ((nestingRun_append hrun _).trans
      (nestingRun_cons hlast []))
  | .exit, base, bs, _, hjumps => by
    have hloop : bs.any OpenBlock.isLoop ≠ false := fun hnone => Bool.noConfusion (hjumps hnone)
    exact nestingRun_cons (nestingStep_jump base bs (by decide) hloop) []
  | .next, base, bs, _, hjumps => by
    have hloop : bs.any OpenBlock.isLoop ≠ false := fun hnone => Bool.noConfusion (hjumps hnone)
    exact nestingRun_cons (nestingStep_jump base bs (by decide) hloop) []

theorem Elsewise.nestingRun_lines : ∀ (e : Elsewise) (base : Nat) (bs : List OpenBlock),
    (∀ m ∈ e.moves, m.Spelled) → (bs.any OpenBlock.isLoop = false → e.hasStrayJump = false) →
    ∃ inElse, nestingRun base (.branch false :: bs) (e.lines (base + bs.length)) =
      some (.branch inElse :: bs)
  | .none, base, bs, _, _ => ⟨false, rfl⟩
  | .body body, base, bs, h, hjumps => by
    have hfirst := nestingStep_else base bs
    have hrun := Sequential.nestingRun_linesOfList body base (.branch true :: bs) h hjumps
    exact ⟨true, (nestingRun_cons hfirst _).trans hrun⟩
  | .branch condition body otherwise, base, bs, h, hjumps => by
    obtain ⟨hbody, hotherwise⟩ := List.forall_mem_append.1 (List.forall_mem_cons.1 h).2
    have hfirst := nestingStep_elsif base bs condition.vhdlCondition
    have hrun := Sequential.nestingRun_linesOfList body base (.branch false :: bs) hbody
      fun hloop => (Bool.or_eq_false_iff.1 (hjumps hloop)).1
    obtain ⟨inElse, hrest⟩ := otherwise.nestingRun_lines base bs hotherwise
      fun hloop => (Bool.or_eq_false_iff.1 (hjumps hloop)).2
    rw [Elsewise.lines, List.cons_append]
    exact ⟨inElse, (nestingRun_cons hfirst _).trans ((nestingRun_append hrun _).trans hrest)⟩

/-- The lines of statements leave open what was open before them. -/
theorem Sequential.nestingRun_linesOfList :
    ∀ (ss : List Sequential) (base : Nat) (bs : List OpenBlock),
    (∀ m ∈ Sequential.movesOfList ss, m.Spelled) →
    (bs.any OpenBlock.isLoop = false → Sequential.hasStrayJumpIn ss = false) →
    nestingRun base bs (Sequential.linesOfList (base + bs.length) ss) = some bs
  | [], _, _, _, _ => rfl
  | s :: ss, base, bs, h, hjumps => by
    obtain ⟨hs, hss⟩ := List.forall_mem_append.1 h
    have hfirst := s.nestingRun_lines base bs hs fun hloop =>
      (Bool.or_eq_false_iff.1 (hjumps hloop)).1
    rw [Sequential.linesOfList, nestingRun_append hfirst]
    exact Sequential.nestingRun_linesOfList ss base bs hss fun hloop =>
      (Bool.or_eq_false_iff.1 (hjumps hloop)).2

end

/-! ## The lines of a process -/

theorem Sequential.hasStrayJumpIn_eq_false {ss : List Sequential}
    (h : ∀ s ∈ ss, s.hasStrayJump = false) : hasStrayJumpIn ss = false := by
  induction ss with
  | nil => rfl
  | cons s ss ih =>
    obtain ⟨hs, hss⟩ := List.forall_mem_cons.1 h
    rw [hasStrayJumpIn, hs, ih hss, Bool.or_false]

namespace Process

/-- The lines of a process before its statements. -/
def headLines (p : Process) : List String :=
  ["  process(clk, reset)"] ++
  (p.locals.map fun v => s!"    variable {v.name} : {v.type.vector};") ++ ["  begin"]

/-- The branch that the statements of a process stand in. -/
def frameLines (p : Process) : List String :=
  ["    if reset = '1' then", "      -- Reset logic", "    elsif rising_edge(clk) then"] ++
  Sequential.linesOfList 3 p.clocked ++ ["    end if;"]

theorem lines_eq (p : Process) :
    p.lines = p.headLines ++ p.frameLines ++ ["  end process;"] := by
  simp [lines, headLines, frameLines]

/-- The lines of a process are well nested. -/
structure Nested (p : Process) : Prop where
  /-- Its text has the lines of one branch, with some lines around them. -/
  text : textLines (unlines p.lines) = p.headLines ++ p.frameLines ++ ["  end process;"]
  /-- In the lines around them no block begins or ends. -/
  around : ∀ line ∈ p.headLines ++ ["  end process;"],
    LineKind.ofText (withoutIndent line) = .plain
  /-- The branch is closed at its end, and so is each block in it. -/
  frame : nestingRun 2 [] p.frameLines = some []
  /-- Without the branch, the statements are three steps to the right and close what they open. -/
  body : nestingRun 3 [] (Sequential.linesOfList 3 p.clocked) = some []

theorem ofText_variableLine (v : ProcessVariable) :
    LineKind.ofText (withoutIndent s!"    variable {v.name} : {v.type.vector};") = .plain := by
  have hline : s!"    variable {v.name} : {v.type.vector};" =
      indented 2 ("variable " ++ (v.name ++ " : " ++ v.type.vector) ++ ";") := by
    show "    variable " ++ v.name ++ " : " ++ v.type.vector ++ ";" =
      "    " ++ ("variable " ++ (v.name ++ " : " ++ v.type.vector) ++ ";")
    simp only [String.append_assoc]
    rfl
  have hflush : isFlush ("variable " ++ (v.name ++ " : " ++ v.type.vector) ++ ";") = true :=
    isFlush_append _ (isFlush_append _ (by decide))
  have hhead := LineKind.head?_append (v.name ++ " : " ++ v.type.vector) ";"
    (by decide : "variable ".toList.head? = some 'v')
  rw [hline, withoutIndent, (takeWhile_indented hflush 2).2, String.ofList_toList]
  refine LineKind.ofText_eq_plain ?_ fun hmem => ?_
  · rw [String.toList_append, List.getLast?_append]
    rfl
  · have hfixed : ∀ text ∈ ["end if;", "end loop;", "exit;", "next;"],
        text.toList.head? ≠ some 'v' := by decide
    exact hfixed _ hmem hhead

end Process

namespace Function

variable {f : Function}

/-- No jump of a process is outside of all loops. -/
theorem hasStrayJumpIn_clocked (h : Block.hasStrayJump f.body = false) :
    Sequential.hasStrayJumpIn f.process.clocked = false := by
  have hcopyIn : Sequential.hasStrayJumpIn (f.process.locals.map ProcessVariable.copyIn) =
      false := by
    refine Sequential.hasStrayJumpIn_eq_false fun s hs => ?_
    obtain ⟨v, -, rfl⟩ := List.mem_map.1 hs
    rfl
  have hcopyOut : Sequential.hasStrayJumpIn
      (f.process.locals.reverse.filterMap ProcessVariable.copyOut?) = false := by
    refine Sequential.hasStrayJumpIn_eq_false fun s hs => ?_
    obtain ⟨v, -, hv⟩ := List.mem_filterMap.1 hs
    unfold ProcessVariable.copyOut? at hv
    split at hv
    · cases hv
      rfl
    · cases hv
  have hbody : Sequential.hasStrayJumpIn f.process.body = false :=
    (Block.hasStrayJumpIn_lower f.body none _).trans h
  rw [Process.clocked, Sequential.hasStrayJumpIn_append, Sequential.hasStrayJumpIn_append, hcopyIn,
    hbody, hcopyOut]
  rfl

theorem nested_process (hspelled : f.WellSpelled) (h : Block.hasStrayJump f.body = false) :
    f.process.Nested where
  text := by
    rw [textLines_unlines (printable_process hspelled), Process.lines_eq]
  around := by
    have hfirst : LineKind.ofText (withoutIndent "  process(clk, reset)") = .plain := by decide
    have hbegin : LineKind.ofText (withoutIndent "  begin") = .plain := by decide
    have hlast : LineKind.ofText (withoutIndent "  end process;") = .plain := by decide
    refine List.forall_mem_append.2 ⟨List.forall_mem_append.2 ⟨List.forall_mem_append.2 ⟨?_, ?_⟩,
      ?_⟩, List.forall_mem_singleton.2 hlast⟩
    · exact List.forall_mem_singleton.2 hfirst
    · intro line hline
      obtain ⟨v, -, rfl⟩ := List.mem_map.1 hline
      exact Process.ofText_variableLine v
    · exact List.forall_mem_singleton.2 hbegin
  frame := by
    have hfirst : nestingRun 2 [] ["    if reset = '1' then", "      -- Reset logic",
        "    elsif rising_edge(clk) then"] = some [.branch false] := by decide
    have hbody := Sequential.nestingRun_linesOfList f.process.clocked 2 [.branch false]
      (spelled_clocked hspelled) fun _ => hasStrayJumpIn_clocked h
    have hlast : nestingRun 2 [.branch false] ["    end if;"] = some [] := by decide
    rw [Process.frameLines, List.append_assoc, nestingRun_append hfirst]
    exact (nestingRun_append hbody _).trans hlast
  body := Sequential.nestingRun_linesOfList f.process.clocked 3 [] (spelled_clocked hspelled)
    fun _ => hasStrayJumpIn_clocked h

/-- **Jumps are in loops, and blocks are nested.** In every function that is read, with or without
its calls numbered, each jump is in the body of a loop. In the text of its process each branch and
each loop ends at a line of its own kind, before the block around it ends. The parts of a branch
belong to the innermost block, and none follows the one for all other cases. Each line stands two
blanks to the right for every block around it, and jumps stand in loops. -/
theorem process_nested {source : String} {program : Program}
    (h : (Program.ofSource source).outcome = .ok program) (hf : f ∈ program.functions) :
    ∀ g ∈ [f, f.numbered], (∀ n ∈ Block.jumpDepths 0 g.body, 0 < n) ∧ g.process.Nested := by
  have hwritten := Program.written_of_ofSource h f hf
  have hjumps := (Program.checked_of_ofSource h f hf).jumps
  have hnumbered : Block.hasStrayJump f.numberCalls.1.body = false :=
    (Block.hasStrayJump_numberCalls f.body f.firstFreeUnit).trans hjumps
  rw [f.numbered_eq_numberCalls]
  refine List.forall_mem_cons.2 ⟨⟨?_, ?_⟩, List.forall_mem_singleton.2 ⟨?_, ?_⟩⟩
  · exact Block.pos_of_mem_jumpDepths f.body fun _ => hjumps
  · exact nested_process hwritten.wellSpelled hjumps
  · exact Block.pos_of_mem_jumpDepths f.numberCalls.1.body fun _ => hnumbered
  · exact nested_process hwritten.wellSpelled_numberCalls hnumbered

end Function

/-- A branch with three parts in a loop, with a jump in each of the first two. -/
theorem process_nested_loop :
    let assign : Stmt := .assign ⟨.name "x", .number "0", ⟨1, 79⟩⟩
    let branch : Stmt := .branch (.name "x") [.jump .leave ⟨1, 37⟩]
      (.branch (.number "1") [.jump .again ⟨1, 60⟩] (.body [assign]) ⟨1, 46⟩) ⟨1, 28⟩
    let f : Function :=
      ⟨"f", .int, [⟨.int, "x"⟩], [.whileLoop (.name "x") [branch] ⟨1, 16⟩], ⟨1, 5⟩⟩
    (Program.ofSource
      "int f(int x) { while (x) { if (x) { break; } else if (1) { continue; } else { x = 0; } } }"
      ).outcome = .ok ⟨[f]⟩ ∧
    Block.jumpDepths 0 f.body = [1, 1] ∧ f.process.Nested ∧
    Sequential.linesOfList 3 f.process.clocked =
      ["      while unsigned(x) /= 0 loop",
        "        if unsigned(x) /= 0 then",
        "          exit;",
        "        elsif true then",
        "          next;",
        "        else",
        "          x <= 0;",
        "        end if;",
        "      end loop;"] := by
  intro assign branch f
  have hread : (Program.ofSource
      "int f(int x) { while (x) { if (x) { break; } else if (1) { continue; } else { x = 0; } } }"
      ).outcome = .ok ⟨[f]⟩ := by
    with_unfolding_all rfl
  have hnested := Function.process_nested hread (List.mem_singleton_self _) f List.mem_cons_self
  exact ⟨hread, rfl, hnested.2, by decide⟩

end ClockedC
