import Imp32.Proofs.Editing.Words
import Imp32.Proofs.Nodes

/-!
# Indentation

A program in canonical layout shows its blocks: every line begins four spaces further right for each
brace that is open in front of it, less one brace if it closes a block itself. The lines inside of a
block are moved to the right as a whole. That is right for each of them because lines of statements
close what they open (`Laid`), so that the brace in front of the block is open for all of them
(`Laid.block`). There is a line for every statement, and one more for each that has something
between its braces (`Program.print_followsBlocks`).
-/

namespace Imp32

open Text

/-! ## Lines as they are read -/

/-- How many more braces the characters open than they close. -/
def braceDepth (cs : List Char) : Int := (cs.count '\x7b' : Int) - cs.count '\x7d'

def leadingSpaces (line : List Char) : Nat := (line.takeWhile (· = ' ')).length

def firstSign? (line : List Char) : Option Char := (line.dropWhile (· = ' ')).head?

/-- The line stands as far right as it should behind so many open braces, and does not end with a
space. -/
structure LineIndented (depth : Int) (line : List Char) : Prop where
  ne_nil : line ≠ []
  last : line.getLast? ≠ some ' '
  indented : (leadingSpaces line : Int) =
    4 * (depth - if firstSign? line = some '\x7d' then 1 else 0)

/-- Each of the lines stands as far right as it should, the first behind so many open braces. -/
inductive LinesIndented : Int → List (List Char) → Prop
  | nil {depth : Int} : LinesIndented depth []
  | cons {depth : Int} {line : List Char} {lines : List (List Char)} (h : LineIndented depth line)
      (hlines : LinesIndented (depth + braceDepth line) lines) : LinesIndented depth (line :: lines)

section Lines

variable {depth : Int} {line cs ds : List Char} {lines lines' : List (List Char)}

theorem braceDepth_append (cs ds : List Char) :
    braceDepth (cs ++ ds) = braceDepth cs + braceDepth ds := by
  simp only [braceDepth, List.count_append, Int.natCast_add]
  omega

theorem LinesIndented.append (h : LinesIndented depth lines)
    (h' : LinesIndented (depth + braceDepth lines.flatten) lines') :
    LinesIndented depth (lines ++ lines') := by
  induction h with
  | nil => simpa [braceDepth] using h'
  | cons hline _ ih =>
    refine .cons hline (ih ?_)
    rwa [Int.add_assoc, ← braceDepth_append]

/-- A line is as far right as the braces in front of it say. -/
theorem LinesIndented.lineIndented {earlier later : List (List Char)}
    (h : LinesIndented depth (earlier ++ line :: later)) :
    LineIndented (depth + braceDepth earlier.flatten) line := by
  induction earlier generalizing depth with
  | nil =>
    cases h with
    | cons hline _ => simpa [braceDepth] using hline
  | cons first earlier ih =>
    cases h with
    | cons _ hlines =>
      rw [List.flatten_cons, braceDepth_append, ← Int.add_assoc]
      exact ih hlines

/-! ## Lines one level deeper -/

theorem indentLine_of_ne_nil (h : line ≠ []) : indentLine line = List.replicate 4 ' ' ++ line :=
  if_neg (by simpa using h)

theorem braceDepth_indentLine (line : List Char) :
    braceDepth (indentLine line) = braceDepth line := by
  unfold indentLine
  split
  · rfl
  · rw [braceDepth_append]
    exact Int.zero_add _

theorem braceDepth_map_indentLine (lines : List (List Char)) :
    braceDepth (lines.map indentLine).flatten = braceDepth lines.flatten := by
  induction lines with
  | nil => rfl
  | cons line lines ih =>
    rw [List.map_cons, List.flatten_cons, List.flatten_cons, braceDepth_append, braceDepth_append,
      braceDepth_indentLine, ih]

theorem LineIndented.indent (h : LineIndented depth line) :
    LineIndented (depth + 1) (indentLine line) := by
  have hspaces : ∀ c ∈ List.replicate 4 ' ', decide (c = ' ') = true := fun c hc =>
    decide_eq_true (List.eq_of_mem_replicate hc)
  rw [indentLine_of_ne_nil h.ne_nil]
  refine ⟨List.append_ne_nil_of_right_ne_nil _ h.ne_nil, ?_, ?_⟩
  · rw [List.getLast?_append_of_ne_nil _ h.ne_nil]
    exact h.last
  · have hfirst : firstSign? (List.replicate 4 ' ' ++ line) = firstSign? line := by
      unfold firstSign?
      rw [List.dropWhile_append_of_pos hspaces]
    have hleading : leadingSpaces (List.replicate 4 ' ' ++ line) = 4 + leadingSpaces line := by
      unfold leadingSpaces
      rw [List.takeWhile_append_of_pos hspaces, List.length_append, List.length_replicate]
    have hline := h.indented
    rw [hfirst, hleading]
    omega

theorem LinesIndented.indent (h : LinesIndented depth lines) :
    LinesIndented (depth + 1) (lines.map indentLine) := by
  induction h with
  | nil => exact .nil
  | @cons depth line lines hline _ ih =>
    refine .cons hline.indent ?_
    rwa [braceDepth_indentLine, Int.add_right_comm]

end Lines

/-! ## Names -/

/-- The name has ASCII letters and digits only, and begins with a letter. A keyword has, too. -/
def IsIdentifier (name : String) : Prop :=
  name.toList.head?.any Char.isAlpha = true ∧ name.toList.all Char.isAlphanum = true

instance (name : String) : Decidable (IsIdentifier name) :=
  inferInstanceAs (Decidable (_ ∧ _))

/-- Every name is an identifier. -/
def Expr.Named : Expr → Prop
  | value _ _ => True
  | var name _ => IsIdentifier name
  | neg a _ => a.Named
  | binary a _ b _ => a.Named ∧ b.Named

/-! ## Expressions -/

def isInner (c : Char) : Bool := inLine c && c ≠ '\x7b' && c ≠ '\x7d'

/-- A line may begin with these characters, of which the first is no space. -/
structure LineStart (cs : List Char) : Prop where
  ne_nil : cs ≠ []
  inner : cs.all isInner = true
  first : cs.head? ≠ some ' '

section LineStart

variable {cs ds : List Char}

theorem isInner_of_isAlphanum {c : Char} (h : c.isAlphanum = true) : isInner c = true := by
  have hopen : c ≠ '\x7b' := by
    rintro rfl
    exact absurd h (by decide)
  have hclose : c ≠ '\x7d' := by
    rintro rfl
    exact absurd h (by decide)
  simp [isInner, inLine_of_isAlphanum h, hopen, hclose]

theorem LineStart.of_alphanum (hne : cs ≠ []) (h : cs.all Char.isAlphanum = true) :
    LineStart cs where
  ne_nil := hne
  inner := List.all_eq_true.2 fun c hc => isInner_of_isAlphanum (List.all_eq_true.1 h c hc)
  first hspace := by
    have := List.all_eq_true.1 h ' ' (List.mem_of_head? hspace)
    exact absurd this (by decide)

/-- Behind the first character there may be spaces. -/
theorem LineStart.append (h : LineStart cs) (hds : ds.all isInner = true) :
    LineStart (cs ++ ds) where
  ne_nil := List.append_ne_nil_of_left_ne_nil h.ne_nil _
  inner := by rw [List.all_append, h.inner, hds]; rfl
  first := by
    rw [List.head?_append_of_ne_nil _ h.ne_nil]
    exact h.first

theorem LineStart.cons {c : Char} (hc : isInner c = true) (hspace : c ≠ ' ')
    (hds : ds.all isInner = true) : LineStart (c :: ds) where
  ne_nil := List.cons_ne_nil c ds
  inner := by rw [List.all_cons, hc, hds]; rfl
  first := fun h => hspace (Option.some.inj h)

theorem BinaryOp.symbol_inner (op : BinaryOp) : (chars op.symbol).all isInner = true := by
  cases op <;> decide

theorem lineStart_decimal (n : Int) : LineStart (decimal n) := by
  have hdigits : LineStart (Nat.toDigits 10 n.natAbs) := by
    refine .of_alphanum Nat.toDigits_ne_nil (List.all_eq_true.2 fun c hc => ?_)
    have hdigit := Nat.isDigit_of_mem_toDigits (by decide) (by decide) hc
    simp [Char.isAlphanum, hdigit]
  unfold decimal
  split
  · exact .cons (by decide) (by decide) hdigits.inner
  · exact hdigits

theorem LineStart.parenthesizeIf (h : LineStart cs) (need : Bool) :
    LineStart (parenthesizeIf need cs) := by
  cases need with
  | false => exact h
  | true =>
    have hclosed : LineStart (cs ++ [')']) := h.append (by decide)
    exact .cons (by decide) (by decide) hclosed.inner

theorem Expr.lineStart_layout {e : Expr} (h : e.Named) (least : Nat) :
    LineStart (e.layout least) := by
  induction e generalizing least with
  | value n span => exact lineStart_decimal n
  | var name span =>
    refine .of_alphanum (fun hnil => ?_) h.2
    have hname : name.toList = [] := hnil
    have hfirst := h.1
    rw [hname] at hfirst
    cases hfirst
  | neg a span ih =>
    have ha := ih h Precedence.unary
    exact (LineStart.cons (by decide) (by decide) ha.inner).parenthesizeIf _
  | binary a op b span iha ihb =>
    have hop :
        (' ' :: (chars op.symbol ++ ' ' :: b.layout op.rightOperand)).all isInner = true := by
      rw [List.all_cons, List.all_append, List.all_cons, op.symbol_inner,
        (ihb h.2 op.rightOperand).inner]
      rfl
    exact ((iha h.1 op.leftOperand).append hop).parenthesizeIf _

theorem clauseLayout_inner {e : Option Expr} (h : ∀ a ∈ e, a.Named) :
    (clauseLayout e).all isInner = true := by
  cases e with
  | none => rfl
  | some e => exact (e.lineStart_layout (h e rfl) Precedence.lowest).inner

theorem lineStart_conditionHeading {keyword : String} {cond : Expr}
    (hkeyword : LineStart (chars keyword)) (h : cond.Named) :
    LineStart (conditionHeading keyword cond) :=
  ((hkeyword.append (by decide)).append (cond.lineStart_layout h Precedence.lowest).inner).append
    (by decide)

theorem lineStart_forHeading {init cond update : Option Expr} (hinit : ∀ e ∈ init, e.Named)
    (hcond : ∀ e ∈ cond, e.Named) (hupdate : ∀ e ∈ update, e.Named) :
    LineStart (forHeading init cond update) := by
  have hfor : LineStart (chars "for (") := ⟨by decide, by decide, by decide⟩
  exact (((((hfor.append (clauseLayout_inner hinit)).append (by decide)).append
    (clauseLayout_inner hcond)).append (by decide)).append (clauseLayout_inner hupdate)).append
      (by decide)

end LineStart

/-! ## Statements -/

/-- Lines of statements: they stand as far right as they should where no brace is open in front of
them, and they close what they open. -/
structure Laid (lines : List (List Char)) : Prop where
  indented : LinesIndented 0 lines
  balanced : braceDepth lines.flatten = 0
  inLine : ∀ line ∈ lines, ∀ c ∈ line, inLine c = true

section Laid

variable {cs tail heading : List Char} {lines lines' : List (List Char)}

theorem braceDepth_of_inner (h : cs.all isInner = true) : braceDepth cs = 0 := by
  have hopen : '\x7b' ∉ cs := fun hmem => absurd (List.all_eq_true.1 h _ hmem) (by decide)
  have hclose : '\x7d' ∉ cs := fun hmem => absurd (List.all_eq_true.1 h _ hmem) (by decide)
  simp [braceDepth, List.count_eq_zero.2 hopen, List.count_eq_zero.2 hclose]

theorem inLine_of_inner (h : cs.all isInner = true) : ∀ c ∈ cs, inLine c = true := by
  intro c hc
  have hinner := List.all_eq_true.1 h c hc
  unfold isInner at hinner
  simp only [Bool.and_eq_true] at hinner
  exact hinner.1.1

/-- A line that begins with neither a space nor a closing brace stands at the margin. -/
theorem LineIndented.of_first {c : Char} (hspace : c ≠ ' ') (hclose : c ≠ '\x7d')
    (hlast : (c :: cs).getLast? ≠ some ' ') : LineIndented 0 (c :: cs) where
  ne_nil := List.cons_ne_nil c cs
  last := hlast
  indented := by
    have hfirst : firstSign? (c :: cs) = some c := by
      unfold firstSign?
      rw [List.dropWhile_cons_of_neg (by simpa using hspace)]
      rfl
    have hleading : leadingSpaces (c :: cs) = 0 := by
      unfold leadingSpaces
      rw [List.takeWhile_cons_of_neg (by simpa using hspace)]
      rfl
    rw [hfirst, hleading, if_neg fun h => hclose (Option.some.inj h)]
    rfl

/-- So does one that has a heading in front of such a beginning, or none. -/
theorem LineIndented.of_heading {c : Char} (h : heading = [] ∨ LineStart heading)
    (hspace : c ≠ ' ') (hclose : c ≠ '\x7d') (hlast : (c :: tail).getLast? ≠ some ' ') :
    LineIndented 0 (heading ++ c :: tail) := by
  have hlast' : (heading ++ c :: tail).getLast? ≠ some ' ' := by
    rwa [List.getLast?_append_of_ne_nil _ (List.cons_ne_nil c tail)]
  obtain rfl | h := h
  · exact .of_first hspace hclose hlast
  · obtain ⟨d, cs, rfl⟩ := List.exists_cons_of_ne_nil h.ne_nil
    have hinner : d ≠ '\x7d' := by
      rintro rfl
      exact absurd (List.all_eq_true.1 h.inner _ List.mem_cons_self) (by decide)
    exact .of_first (fun hd => h.first (congrArg some hd)) hinner hlast'

theorem inner_of_heading (h : heading = [] ∨ LineStart heading) :
    heading.all isInner = true := by
  obtain rfl | h := h
  · rfl
  · exact h.inner

theorem inLine_indentLine {line : List Char} (h : ∀ c ∈ line, inLine c = true) :
    ∀ c ∈ indentLine line, inLine c = true := by
  unfold indentLine
  split
  · exact h
  · exact List.forall_mem_append.2 ⟨List.all_eq_true.1 (by decide), h⟩

namespace Laid

theorem nil : Laid [] := ⟨.nil, rfl, nofun⟩

theorem append (h : Laid lines) (h' : Laid lines') : Laid (lines ++ lines') where
  indented := h.indented.append (by rw [h.balanced]; exact h'.indented)
  balanced := by rw [List.flatten_append, braceDepth_append, h.balanced, h'.balanced]; rfl
  inLine := List.forall_mem_append.2 ⟨h.inLine, h'.inLine⟩

/-- A line that closes what it opens. -/
theorem single {line : List Char} (h : LineIndented 0 line) (hbalanced : braceDepth line = 0)
    (hline : ∀ c ∈ line, Text.inLine c = true) : Laid [line] where
  indented := .cons h .nil
  balanced := by rwa [List.flatten_singleton]
  inLine := List.forall_mem_singleton.2 hline

theorem statement (h : LineStart cs) : Laid [cs ++ [';']] := by
  have hsemicolon : LineStart (cs ++ [';']) := h.append (by decide)
  exact .single (.of_heading (.inr h) (by decide) (by decide) (by decide))
    (braceDepth_of_inner hsemicolon.inner) (inLine_of_inner hsemicolon.inner)

/-- The brace in front of the lines of a block is open for all of them. -/
theorem block (hheading : heading = [] ∨ LineStart heading) (h : Laid lines) :
    Laid (blockLines heading lines) := by
  have hinner := inner_of_heading hheading
  have hzero := braceDepth_of_inner hinner
  have hline := inLine_of_inner hinner
  unfold blockLines
  split
  · refine .single (.of_heading hheading (by decide) (by decide) (by decide)) ?_ ?_
    · rw [braceDepth_append, hzero]
      rfl
    · exact List.forall_mem_append.2 ⟨hline, List.all_eq_true.1 (by decide)⟩
  · have hopen : braceDepth (heading ++ ['\x7b']) = 1 := by
      rw [braceDepth_append, hzero]
      rfl
    have hbody : braceDepth (lines.map indentLine).flatten = 0 := by
      rw [braceDepth_map_indentLine, h.balanced]
    have hclose : LineIndented 1 ['\x7d'] := ⟨by decide, by decide, by decide⟩
    -- The lines inside are one level deeper, and the last brace closes that level itself.
    refine ⟨.cons (.of_heading hheading (by decide) (by decide) (by decide)) ?_, ?_, ?_⟩
    · rw [hopen]
      refine h.indented.indent.append (.cons ?_ .nil)
      rw [hbody]
      exact hclose
    · rw [List.flatten_cons, braceDepth_append, hopen, List.flatten_append, braceDepth_append,
        hbody]
      rfl
    · have hin : ∀ line ∈ lines.map indentLine, ∀ c ∈ line, Text.inLine c = true :=
        List.forall_mem_map.2 fun line hmem => inLine_indentLine (h.inLine line hmem)
      have hopening : ∀ c ∈ heading ++ ['\x7b'], Text.inLine c = true :=
        List.forall_mem_append.2 ⟨hline, List.all_eq_true.1 (by decide)⟩
      have hclosing : ∀ c ∈ ['\x7d'], Text.inLine c = true := List.all_eq_true.1 (by decide)
      exact List.forall_mem_cons.2 ⟨hopening,
        List.forall_mem_append.2 ⟨hin, List.forall_mem_singleton.2 hclosing⟩⟩

end Laid

mutual

theorem Stmt.laid_lines {s : Stmt} (h : s.Each Expr.Named) : Laid s.lines := by
  cases s with
  | expr e span => exact .statement (e.lineStart_layout h Precedence.lowest)
  | block body span => exact .block (.inl rfl) (laid_statementLines h)
  | ifThen cond body span =>
    have hif : LineStart (chars "if") := .of_alphanum (by decide) (by decide)
    exact .block (.inr (lineStart_conditionHeading hif h.1)) (laid_statementLines h.2)
  | whileLoop cond body span =>
    have hwhile : LineStart (chars "while") := .of_alphanum (by decide) (by decide)
    exact .block (.inr (lineStart_conditionHeading hwhile h.1)) (laid_statementLines h.2)
  | forLoop init cond update body span =>
    obtain ⟨hinit, hcond, hupdate, hbody⟩ := h
    exact .block (.inr (lineStart_forHeading hinit hcond hupdate)) (laid_statementLines hbody)

theorem laid_statementLines {p : Program} (h : p.Each Expr.Named) : Laid (statementLines p) := by
  cases p with
  | nil => exact .nil
  | cons s rest => exact (Stmt.laid_lines h.1).append (laid_statementLines h.2)

end

end Laid

/-! ## The number of lines -/

/-- The statements between the braces of a statement. -/
def Stmt.body : Stmt → List Stmt
  | .expr _ _ => []
  | .block body _ | .ifThen _ body _ | .whileLoop _ body _ | .forLoop _ _ _ body _ => body

/-- The number of lines that statements take, what is inside of them aside: one each, or two with
something between their braces. -/
def lineCount (statements : List Stmt) : Nat :=
  statements.length + statements.countP (!·.body.isEmpty)

theorem lineCount_append (a b : List Stmt) : lineCount (a ++ b) = lineCount a + lineCount b := by
  simp only [lineCount, List.length_append, List.countP_append]
  omega

theorem lineCount_cons (s : Stmt) (statements : List Stmt) :
    lineCount (s :: statements) =
      lineCount statements + 1 + if s.body.isEmpty then 0 else 1 := by
  simp only [lineCount, List.length_cons, List.countP_cons]
  cases s.body.isEmpty <;> simp <;> omega

theorem Stmt.statements_ne_nil (s : Stmt) : s.statements ≠ [] := by
  cases s <;> exact List.cons_ne_nil _ _

theorem isEmpty_statements (p : Program) : p.statements.isEmpty = p.isEmpty := by
  cases p with
  | nil => rfl
  | cons s rest =>
    have hne : s.statements ++ Program.statements rest ≠ [] :=
      List.append_ne_nil_of_left_ne_nil s.statements_ne_nil _
    simpa [Program.statements] using hne

/-- The braces of a block are on a line each if there is something in them. -/
theorem length_blockLines (heading : List Char) {lines : List (List Char)} {p : Program}
    (h : lines.length = lineCount p.statements) :
    (blockLines heading lines).length =
      lineCount p.statements + 1 + if p.isEmpty then 0 else 1 := by
  have hempty : lines.isEmpty = p.isEmpty := by
    rw [← isEmpty_statements, Bool.eq_iff_iff, List.isEmpty_iff_length_eq_zero,
      List.isEmpty_iff_length_eq_zero, h]
    unfold lineCount
    constructor
    · omega
    · intro hzero
      rw [List.length_eq_zero_iff.1 hzero]
      rfl
  unfold blockLines
  rw [hempty]
  split
  · rename_i hp
    rw [List.isEmpty_iff.1 hp]
    rfl
  · rw [List.length_cons, List.length_append, List.length_map, h, List.length_singleton]

mutual

theorem Stmt.length_lines (s : Stmt) : s.lines.length = lineCount s.statements := by
  cases s with
  | expr e span => rfl
  | block body | ifThen _ body | whileLoop _ body | forLoop _ _ _ body =>
    rw [Stmt.statements, lineCount_cons]
    exact length_blockLines _ (length_statementLines body)

theorem length_statementLines (p : Program) :
    (statementLines p).length = lineCount p.statements := by
  cases p with
  | nil => rfl
  | cons s rest =>
    rw [statementLines, List.length_append, Program.statements, lineCount_append, s.length_lines,
      length_statementLines rest]

end

/-! ## Programs -/

/-- The text of a program shows the blocks of the program. -/
structure Program.FollowsBlocks (p : Program) : Prop where
  /-- Every line is ended by a line feed, and by nothing else. -/
  feeds : p.print.toList = (linesOf p.print.toList).flatMap (· ++ ['\n'])
  /-- Every line stands as far right as the braces say that the lines in front of it leave open. -/
  indented : ∀ earlier line later, linesOf p.print.toList = earlier ++ line :: later →
    LineIndented (braceDepth earlier.flatten) line
  length : (linesOf p.print.toList).length =
    p.statements.length + p.statements.countP (!·.body.isEmpty)
  ends : p.print.toList = [] ∨ ∃ cs c, p.print.toList = cs ++ [c, '\n'] ∧ c ≠ '\n'

theorem Program.toList_print (p : Program) :
    p.print.toList = (statementLines p).flatMap (· ++ ['\n']) := String.toList_ofList

/-- What ends with a line ends with a character of the line and a line feed. -/
theorem exists_ends_flatMap_feed {lines : List (List Char)} (hne : lines ≠ [])
    (hlines : ∀ line ∈ lines, line ≠ [] ∧ ∀ c ∈ line, inLine c = true) :
    ∃ cs c, lines.flatMap (· ++ ['\n']) = cs ++ [c, '\n'] ∧ c ≠ '\n' := by
  obtain ⟨earlier, line, rfl⟩ := List.eq_nil_or_concat lines |>.resolve_left hne
  obtain ⟨hline, hin⟩ := hlines line (by simp)
  obtain ⟨cs, c, rfl⟩ := List.eq_nil_or_concat line |>.resolve_left hline
  refine ⟨earlier.flatMap (· ++ ['\n']) ++ cs, c, by simp, ?_⟩
  rintro rfl
  exact absurd (hin '\n' (by simp)) (by decide)

/-- A program with identifiers for names is laid out along its blocks. -/
theorem Program.print_followsBlocks {p : Program} (h : p.Each Expr.Named) : p.FollowsBlocks := by
  have hlaid := laid_statementLines h
  have hlines : linesOf p.print.toList = statementLines p := by
    rw [toList_print]
    exact linesOf_flatMap_feed hlaid.inLine
  have hindented : ∀ earlier line later, statementLines p = earlier ++ line :: later →
      LineIndented (braceDepth earlier.flatten) line := by
    intro earlier line later heq
    have hline := (heq ▸ hlaid.indented).lineIndented
    rwa [Int.zero_add] at hline
  refine ⟨?_, ?_, ?_, ?_⟩
  · rw [hlines, toList_print]
  · rwa [hlines]
  · rw [hlines]
    exact length_statementLines p
  · rw [toList_print]
    by_cases hne : statementLines p = []
    · exact .inl (by rw [hne]; rfl)
    · refine .inr (exists_ends_flatMap_feed hne fun line hmem => ⟨?_, hlaid.inLine line hmem⟩)
      obtain ⟨earlier, later, heq⟩ := List.append_of_mem hmem
      exact (hindented earlier line later heq).ne_nil

/-- A loop and an empty block inside of a branch. -/
def branchAround : Program :=
  let x := Expr.var "x" .none
  [.ifThen x [.whileLoop x [.expr (.binary x .assign (.value 0 .none) .none) .none] .none,
    .block [] .none] .none]

theorem Program.print_followsBlocks_branchAround : branchAround.Each Expr.Named ∧
    branchAround.FollowsBlocks ∧ branchAround.print =
      "if (x) \x7b\n    while (x) \x7b\n        x = 0;\n    \x7d\n    \x7b\x7d\n\x7d\n" := by
  have hx : IsIdentifier "x" := by decide
  have hnamed : branchAround.Each Expr.Named :=
    ⟨⟨hx, ⟨hx, ⟨hx, trivial⟩, trivial⟩, trivial, trivial⟩, trivial⟩
  exact ⟨hnamed, print_followsBlocks hnamed, by decide⟩

end Imp32
