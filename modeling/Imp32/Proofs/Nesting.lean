import Imp32.Proofs.RoundTrip

/-!
# Levels of nesting

How many levels of nesting a program takes. `Expr.levels least e` are the levels that are entered
for the canonical layout of `e` at a place that asks for `least`; `statementLevels` are those of a
program.

* No text of a program takes fewer levels than its canonical layout: what is read in some room has
  no more levels than the room (`expression_within`, `ofTokens_within`).
* The canonical layout takes no more than its levels (`Expr.climbs_lexemes`, `parse_print`).

So formatting never makes a program exceed the limit under which it has been read
(`parse_print_of_parse`).
-/

namespace Imp32

open Grammar

theorem Precedence.lowest_le (n : Nat) : Precedence.lowest ≤ n :=
  Nat.zero_le n

/-! ## Levels of a program -/

/-- The levels that are entered for an expression where operators have to bind at least as tightly
as `least`, its own included. -/
def Expr.levels : (least : Nat) → Expr → Nat
  | _, .value _ _ => 1
  | _, .var _ _ => 1
  | least, .neg a _ =>
    (if Precedence.power < least then 1 else 0) + (a.levels Precedence.unary + 1)
  | least, .binary a op b _ =>
    (if op.precedence < least then 1 else 0) +
      max (a.levels op.leftOperand) (b.levels op.rightOperand + 1)

def clauseLevels (e : Option Expr) : Nat :=
  match e with
  | some e => e.levels Precedence.lowest
  | none => 0

mutual

/-- The levels that are entered for a statement. -/
def Stmt.levels : Stmt → Nat
  | .expr e _ => e.levels Precedence.lowest
  | .block body _ => statementLevels body + 1
  | .ifThen cond body _ => max (cond.levels Precedence.lowest) (statementLevels body + 1)
  | .whileLoop cond body _ => max (cond.levels Precedence.lowest) (statementLevels body + 1)
  | .forLoop init cond update body _ =>
    max (max (clauseLevels init) (clauseLevels cond))
      (max (clauseLevels update) (statementLevels body + 1))

def statementLevels : Program → Nat
  | [] => 0
  | s :: rest => max s.levels (statementLevels rest)

end

namespace Expr

theorem levels_pos (e : Expr) (least : Nat) : 0 < e.levels least := by
  cases e <;> simp only [levels] <;> omega

/-- A place that asks for more may need parentheses, which are a level. -/
theorem levels_mono (e : Expr) {least least' : Nat} (h : least ≤ least') :
    e.levels least ≤ e.levels least' := by
  cases e with
  | value n span => exact Nat.le_refl _
  | var name span => exact Nat.le_refl _
  | neg a span => unfold levels; split <;> split <;> omega
  | binary a op b span => unfold levels; split <;> split <;> omega

/-- Parentheses are no more than one level. -/
theorem levels_le_lowest (e : Expr) (least : Nat) :
    e.levels least ≤ e.levels Precedence.lowest + 1 := by
  cases e with
  | value n span => exact Nat.le_succ _
  | var name span => exact Nat.le_succ _
  | neg a span => unfold levels; split <;> split <;> omega
  | binary a op b span => unfold levels; split <;> split <;> omega

theorem levels_neg {a : Expr} {span : Span} {least : Nat} (h : least ≤ Precedence.power) :
    (neg a span).levels least = a.levels Precedence.unary + 1 := by
  conv =>
    lhs
    unfold levels
  rw [if_neg (Nat.not_lt.2 h), Nat.zero_add]

theorem levels_binary {a b : Expr} {op : BinaryOp} {span : Span} {least : Nat}
    (h : least ≤ op.precedence) :
    (binary a op b span).levels least =
      max (a.levels op.leftOperand) (b.levels op.rightOperand + 1) := by
  conv =>
    lhs
    unfold levels
  rw [if_neg (Nat.not_lt.2 h), Nat.zero_add]

end Expr

theorem statementLevels_le {p : Program} {n : Nat} (h : ∀ s ∈ p, s.levels ≤ n) :
    statementLevels p ≤ n := by
  induction p with
  | nil => exact Nat.zero_le n
  | cons s rest ih =>
    exact Nat.max_le.2 ⟨h s List.mem_cons_self, ih fun s hs => h s (List.mem_cons_of_mem _ hs)⟩

/-! ## What is read has no more levels than there were -/

/-- Every operator that stands first asks no more of its left operand than this. -/
def AsksAtMost (most : Nat) (rest : List Token) : Prop :=
  ∀ op span r, rest = ⟨.op op, span⟩ :: r → op.leftOperand ≤ most

theorem asksAtMost_succ_power (rest : List Token) : AsksAtMost (Precedence.power + 1) rest := by
  intro op span r _
  cases op <;> decide

/-- No power follows a negation, so it can be a left operand as it is. -/
theorem Stops.asksAtMost_power {rest : List Token} (h : Stops Precedence.unary rest) :
    AsksAtMost Precedence.power rest := by
  intro op span r hr
  have := h op span r hr
  revert this
  cases op <;> decide

/-- What follows the right operand of an operator can take both operands as its left one. -/
theorem Stops.asksAtMost {op : BinaryOp} {rest : List Token} (h : Stops op.rightOperand rest) :
    AsksAtMost op.precedence rest := by
  intro op' span r hr
  have := h op' span r hr
  revert this
  cases op <;> cases op' <;> decide

namespace TokenReader

/-- What the reader gives has at most this many levels where it stands. -/
def Within (room : Nat) (inner : Nat → TokenReader Expr) : Prop :=
  ∀ least ≤ 6, ∀ s e s', inner least s = .ok e s' → e.levels least ≤ room

/-- The left operand is in the room as it is, also as the left operand of what follows. -/
def LeftWithin (room least : Nat) (lhs : Expr) (s : TokenCursor) : Prop :=
  ∃ most, least ≤ most ∧ lhs.levels most ≤ room + 1 ∧ AsksAtMost most s.rest

section Expressions

variable {room least : Nat} {inner : Nat → TokenReader Expr} {s s' : TokenCursor} {e lhs : Expr}

theorem operand_within (hinner : Sound inner) (hwithin : Within room inner) (hleast : least ≤ 6)
    (h : OperandRead inner s e s') : LeftWithin room least e s' := by
  cases h with
  | value _ =>
    exact ⟨_, Nat.le_succ_of_le hleast, Nat.le_add_left 1 room, asksAtMost_succ_power _⟩
  | var _ => exact ⟨_, Nat.le_succ_of_le hleast, Nat.le_add_left 1 room, asksAtMost_succ_power _⟩
  | neg _ ha =>
    obtain ⟨-, -, -, hstop⟩ := hinner _ (by decide) _ _ _ ha
    refine ⟨Precedence.power, hleast, ?_, hstop.asksAtMost_power⟩
    rw [Expr.levels_neg (Nat.le_refl _)]
    exact Nat.succ_le_succ (hwithin _ (by decide) _ _ _ ha)
  | paren _ ha _ =>
    refine ⟨_, Nat.le_succ_of_le hleast, ?_, asksAtMost_succ_power _⟩
    exact Nat.le_trans (e.levels_le_lowest _)
      (Nat.succ_le_succ (hwithin _ (by decide) _ _ _ ha))

theorem LeftWithin.binary (hinner : Sound inner) (hwithin : Within room inner) {op : BinaryOp}
    {span : Span} {r : List Token} {rhs : Expr} (hr : s.rest = ⟨.op op, span⟩ :: r)
    (hprec : least ≤ op.precedence) (hrhs : inner op.rightOperand s.pass = .ok rhs s')
    (h : LeftWithin room least lhs s) :
    LeftWithin room least (.binary lhs op rhs (lhs.span.join rhs.span)) s' := by
  obtain ⟨most, -, hlevels, hasks⟩ := h
  have hright : op.rightOperand ≤ 6 := by cases op <;> decide
  obtain ⟨-, -, -, hstop⟩ := hinner _ hright _ _ _ hrhs
  refine ⟨op.precedence, hprec, ?_, hstop.asksAtMost⟩
  rw [Expr.levels_binary (Nat.le_refl _)]
  exact Nat.max_le.2 ⟨Nat.le_trans (lhs.levels_mono (hasks op span r hr)) hlevels,
    Nat.succ_le_succ (hwithin _ hright _ _ _ hrhs)⟩

end Expressions

theorem expression_within (room : Nat) : Within room (expression room) := by
  induction room with
  | zero =>
    intro least _ s e s' h
    cases h
  | succ room ih =>
    intro least hleast s e s' h
    have hsound := expression_sound room
    obtain ⟨lhs, s₁, s₂, hlhs, hops, -⟩ := expression_cases h
    obtain ⟨⟨most, hmost, hlevels, -⟩, -⟩ := operators_induct hsound.length_le
      (fun hr hprec _ hrhs => LeftWithin.binary hsound ih hr hprec hrhs) s₁.rest (Nat.le_refl _)
      (operand_within hsound ih hleast hlhs) hops
    exact Nat.le_trans (e.levels_mono hmost) hlevels

section Statements

variable {room : Nat} {block : TokenReader (List Stmt × Span)} {s s' : TokenCursor}

theorem condition_within {e : Expr} (h : condition room s = .ok e s') :
    e.levels Precedence.lowest ≤ room := by
  obtain ⟨_, _, _, _, -, he, -⟩ := condition_cases h
  exact expression_within room _ (by decide) _ _ _ he

theorem clause_within {terminator : Lexeme} {e : Option Expr}
    (h : clause room terminator s = .ok e s') : clauseLevels e ≤ room := by
  obtain ⟨rfl, -⟩ | ⟨a, rfl, ha⟩ := clause_cases h
  · exact Nat.zero_le room
  · exact expression_within room _ (by decide) _ _ _ ha

/-- The blocks that the reader gives have at most this many levels, their own included. -/
def WithinBlock (room : Nat) (block : TokenReader (List Stmt × Span)) : Prop :=
  ∀ s body span s', block s = .ok (body, span) s' → statementLevels body + 1 ≤ room

theorem statement_within (hblock : WithinBlock room block) {stmt : Stmt}
    (h : statement room block s = .ok stmt s') : stmt.levels ≤ room := by
  cases statement_cases h with
  | ifThen _ hcond hb => exact Nat.max_le.2 ⟨condition_within hcond, hblock _ _ _ _ hb⟩
  | whileLoop _ hcond hb => exact Nat.max_le.2 ⟨condition_within hcond, hblock _ _ _ _ hb⟩
  | forLoop _ _ hinit _ hcond _ hupdate _ hb =>
    exact Nat.max_le.2 ⟨Nat.max_le.2 ⟨clause_within hinit, clause_within hcond⟩,
      Nat.max_le.2 ⟨clause_within hupdate, hblock _ _ _ _ hb⟩⟩
  | block hb => exact hblock _ _ _ _ hb
  | expr _ he _ => exact expression_within room _ (by decide) _ _ _ he

end Statements

theorem block_within (room : Nat) : WithinBlock room (block room) := by
  induction room with
  | zero =>
    intro s body span s' h
    obtain ⟨t, s₁, -, h⟩ := bind_eq_ok.1 h
    cases h
  | succ room ih =>
    intro s body span s' h
    obtain ⟨_, _, _, _, _, -, hbody, -⟩ := block_cases h
    exact Nat.succ_le_succ (statementLevels_le
      (statements_each (fun _ _ _ h => statement_within ih h) _ (by simp) hbody))

end TokenReader

/-- Tokens are read as programs of at most as many levels as the limit has. -/
theorem ofTokens_within {ts : List Token} {limit : Int} {p : Program}
    (h : Program.ofTokens ts limit = .ok p) : statementLevels p ≤ limit.toNat := by
  obtain ⟨s, hread⟩ := Program.ofTokens_eq_ok.1 h
  exact statementLevels_le (TokenReader.statementsToEnd_each
    (fun _ _ _ h => TokenReader.statement_within (TokenReader.block_within _) h) _ (by simp) hread)

/-! ## The canonical layout is read in the room of its levels -/

namespace TokenReader

/-- Parentheses where they are needed, and none where the layer is tight enough. -/
theorem Climbs.parenthesesIf {levels : Nat} {c : Category} {ls : List Lexeme} {e : Expr}
    (h : Climbs levels c ls e) (hpos : 0 < levels) (c' : Category) (need : Bool)
    (hrank : need = false → c'.rank ≤ c.rank) :
    Climbs ((if need = true then 1 else 0) + levels) c' (parenthesesIf need ls) e := by
  cases need with
  | false => exact (h.loosen (hrank rfl)).mono (Nat.le_add_left _ _)
  | true =>
    have hexpr : Climbs levels .expr ls e := h.loosen (Nat.zero_le _)
    exact ((hexpr.paren hpos).loosen (by cases c' <;> decide)).mono
      (Nat.le_of_eq (Nat.add_comm _ _))

theorem accepts_of_wellFormed {op : BinaryOp} {a : Expr}
    (h : op = .assign → ∃ name span, a = .var name span) : accepts op a = true := by
  cases op with
  | assign =>
    obtain ⟨name, span, rfl⟩ := h rfl
    rfl
  | _ => rfl

/-- At every place, the lexemes of an expression are read in the room of its levels. -/
theorem climbs_lexemes {e : Expr} (h : e.WellFormed) (least : Nat) :
    Climbs (e.levels least) (.ofLeast least) (e.lexemes least) e := by
  induction e generalizing least with
  | value n span => exact (climbs_num n span).loosen (by cases Category.ofLeast least <;> decide)
  | var name span =>
    exact (climbs_ident name span).loosen (by cases Category.ofLeast least <;> decide)
  | neg a span ih =>
    have hneg := (ih h Precedence.unary).neg (a.levels_pos _) span
    have := hneg.parenthesesIf (Nat.succ_pos _) (.ofLeast least)
      (decide (Precedence.power < least)) fun hleast =>
        Category.rank_ofLeast_le_un (Nat.not_lt.1 (of_decide_eq_false hleast))
    simpa [Expr.levels, Expr.lexemes] using this
  | binary a op b span iha ihb =>
    obtain ⟨hvar, ha, hb⟩ := h
    have hbinary : Climbs (max (a.levels op.leftOperand) (b.levels op.rightOperand + 1)) op.category
        (a.lexemes op.leftOperand ++ .op op :: b.lexemes op.rightOperand)
        (.binary a op b span) := by
      refine (iha ha op.leftOperand).binary span (ihb hb op.rightOperand) (b.levels_pos _)
        (accepts_of_wellFormed hvar) ?_ ?_ ?_ ?_ ?_ ?_ <;> cases op <;> decide
    have := hbinary.parenthesesIf (Nat.lt_of_lt_of_le (a.levels_pos _) (Nat.le_max_left _ _)) (.ofLeast least)
      (decide (op.precedence < least)) fun hleast =>
        op.rank_ofLeast_le_category (Nat.not_lt.1 (of_decide_eq_false hleast))
    simpa [Expr.levels, Expr.lexemes] using this

theorem reads_lexemes {room : Nat} {e : Expr} (h : e.Proper)
    (hlevels : e.levels Precedence.lowest ≤ room) :
    ReadsExpr room (e.lexemes Precedence.lowest) e :=
  Climbs.reads (climbs_lexemes h.wellFormed Precedence.lowest) (e.levels_pos _) hlevels

theorem reads_clauseLexemes {room : Nat} {e : Option Expr} (h : ∀ a ∈ e, a.Proper)
    (hlevels : clauseLevels e ≤ room) : ∀ a ∈ e, ReadsExpr room (clauseLexemes e) a := by
  rintro a rfl
  exact reads_lexemes (h a rfl) hlevels

/-- A block is read in a room with a level for it and those of its statements. -/
theorem reads_blockLexemes {room : Nat} {body : List Stmt}
    (h : ∀ {room}, statementLevels body ≤ room →
      ReadsEach (statement room (block room)) (statementLexemes body) body)
    (hlevels : statementLevels body + 1 ≤ room) :
    ReadsBlock (block room) (blockLexemes (statementLexemes body)) body := by
  cases room with
  | zero => exact absurd hlevels (Nat.not_succ_le_zero _)
  | succ room => exact (h (Nat.le_of_succ_le_succ hlevels)).braces

mutual

theorem reads_stmtLexemes {s : Stmt} (h : s.Each Expr.Proper) {room : Nat}
    (hlevels : s.levels ≤ room) :
    ReadsStmt (statement room (block room)) s.lexemes s := by
  cases s with
  | expr e span =>
    exact .exprStatement span (e.derives_lexemes_lowest h) (reads_lexemes h hlevels)
  | block body span =>
    exact .blockStatement span (.braces (derives_statementLexemes h))
      (reads_blockLexemes (readsEach_lexemes h) hlevels)
  | ifThen cond body span =>
    obtain ⟨hcond, hbody⟩ := Nat.max_le.1 hlevels
    exact .ifThen span (reads_lexemes h.1 hcond)
      (reads_blockLexemes (readsEach_lexemes h.2) hbody)
  | whileLoop cond body span =>
    obtain ⟨hcond, hbody⟩ := Nat.max_le.1 hlevels
    exact .whileLoop span (reads_lexemes h.1 hcond)
      (reads_blockLexemes (readsEach_lexemes h.2) hbody)
  | forLoop init cond update body span =>
    obtain ⟨hi, hc, hu, hb⟩ := h
    obtain ⟨hclauses, hrest⟩ := Nat.max_le.1 hlevels
    obtain ⟨hinit, hcond⟩ := Nat.max_le.1 hclauses
    obtain ⟨hupdate, hbody⟩ := Nat.max_le.1 hrest
    exact .forLoop span (derives_clauseLexemes hi) (reads_clauseLexemes hi hinit)
      (derives_clauseLexemes hc) (reads_clauseLexemes hc hcond) (derives_clauseLexemes hu)
      (reads_clauseLexemes hu hupdate) (reads_blockLexemes (readsEach_lexemes hb) hbody)

/-- The lexemes of a proper program are read in the room of its levels. -/
theorem readsEach_lexemes {p : Program} (h : p.Proper) {room : Nat}
    (hlevels : statementLevels p ≤ room) :
    ReadsEach (statement room (block room)) (statementLexemes p) p := by
  cases p with
  | nil => exact .nil
  | cons s rest =>
    obtain ⟨hs, hrest⟩ := Nat.max_le.1 hlevels
    exact .cons (Stmt.derives_lexemes h.1) (reads_stmtLexemes h.1 hs) (readsEach_lexemes h.2 hrest)

end

end TokenReader

/-- The canonical layout of a proper program is read as it under every limit that is no less than
its levels. -/
theorem parse_print {p : Program} (h : p.Proper) {limit : Int}
    (hlimit : statementLevels p ≤ limit.toNat) :
    ∃ q, Program.parse p.print limit = .ok q ∧ sameTrees q p = true := by
  obtain ⟨ts, hts, hlexemes⟩ := tokens_print h
  obtain ⟨q, hq, hsame⟩ := TokenReader.ReadsEach.program
    (hlexemes ▸ TokenReader.readsEach_lexemes h hlimit)
  exact ⟨q, Program.parse_eq_ok.2 ⟨ts, hts, hq⟩, hsame⟩

/-! ## Formatting again -/

theorem Expr.layout_bare (e : Expr) (least : Nat) : e.bare.layout least = e.layout least := by
  induction e generalizing least with
  | value n span => rfl
  | var name span => rfl
  | neg a span ih => simp only [bare, layout, ih]
  | binary a op b span iha ihb => simp only [bare, layout, iha, ihb]

theorem clauseLayout_bare (e : Option Expr) : clauseLayout (e.map Expr.bare) = clauseLayout e := by
  cases e with
  | none => rfl
  | some e => exact e.layout_bare _

mutual

theorem Stmt.lines_bare (s : Stmt) : s.bare.lines = s.lines := by
  cases s with
  | expr e span => simp only [Stmt.bare, Stmt.lines, e.layout_bare]
  | block body span => simp only [Stmt.bare, Stmt.lines, statementLines_bare body]
  | ifThen cond body span =>
    simp only [Stmt.bare, Stmt.lines, conditionHeading, cond.layout_bare, statementLines_bare body]
  | whileLoop cond body span =>
    simp only [Stmt.bare, Stmt.lines, conditionHeading, cond.layout_bare, statementLines_bare body]
  | forLoop init cond update body span =>
    simp only [Stmt.bare, Stmt.lines, forHeading, clauseLayout_bare, statementLines_bare body]

theorem statementLines_bare (p : Program) : statementLines (bareAll p) = statementLines p := by
  cases p with
  | nil => rfl
  | cons s rest =>
    simp only [bareAll, statementLines, Stmt.lines_bare s, statementLines_bare rest]

end

/-- Spans do not matter to the layout. -/
theorem print_congr {p q : Program} (h : sameTrees p q = true) : p.print = q.print := by
  unfold Program.print
  rw [← statementLines_bare p, (sameTrees_iff p q).1 h, statementLines_bare q]

/-- A limit under which some text is read as a program is enough for its canonical layout, which is
read as the same program and laid out as it is. -/
theorem parse_print_of_parse {source : String} {limit : Int} {p : Program}
    (h : Program.parse source limit = .ok p) :
    ∃ q, Program.parse p.print limit = .ok q ∧ sameTrees q p = true ∧ q.print = p.print := by
  obtain ⟨ts, -, hp⟩ := Program.parse_eq_ok.1 h
  obtain ⟨q, hq, hsame⟩ := parse_print (parse_proper h) (ofTokens_within hp)
  exact ⟨q, hq, hsame, print_congr hsame⟩

/-- A text with parentheses of which only one pair is needed. -/
def powOfPow : String := "while (-(x)) \x7b (2^3)^(4); \x7d"

/-- The text is read under a limit of 4, and so is its layout. -/
theorem parse_print_of_parse_powOfPow : ∃ p q,
    Program.parse powOfPow 4 = .ok p ∧ Program.parse p.print 4 = .ok q ∧ sameTrees q p = true ∧
      q.print = p.print ∧ p.print = "while (-x) \x7b\n    (2 ^ 3) ^ 4;\n\x7d\n" := by
  have hprint : (Program.parse powOfPow 4).toOption.map Program.print =
      some "while (-x) \x7b\n    (2 ^ 3) ^ 4;\n\x7d\n" := by decide +kernel
  cases h : Program.parse powOfPow 4 with
  | error e =>
    rw [h] at hprint
    cases hprint
  | ok p =>
    rw [h] at hprint
    obtain ⟨q, hq, hsame, hagain⟩ := parse_print_of_parse h
    exact ⟨p, q, rfl, hq, hsame, hagain, Option.some.inj hprint⟩

end Imp32
