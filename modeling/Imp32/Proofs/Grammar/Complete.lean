import Imp32.Proofs.Grammar.Climbing

/-!
# What is derived is read

Tokens whose lexemes derive a program are read as that program, up to spans, as soon as the limit
of nesting is no less than their number (`ofTokens_complete`): every level is entered behind a
token of its own. Together with what is read being derived, the parser decides the grammar
(`ofTokens_decidesGrammar`).
-/

namespace Imp32

open Grammar

namespace TokenReader

/-! ## Expressions -/

section Expressions

variable {c : Category} {xs : List Lexeme} {a e : Expr}

theorem climbs_of_target (h : Target xs a) : Climbs xs.length .atom xs a := by
  induction h with
  | ident name span => exact climbs_ident name span
  | paren h ih =>
    refine ((ih.loosen (by decide)).paren (Derives.of_target h).length_pos).mono ?_
    simp only [List.length_append, List.length_cons, List.length_nil]
    omega

/-- A level for each token is enough. -/
theorem climbs_of_derives (h : Derives c xs e) : Climbs xs.length c xs e := by
  have binary_le : ∀ (op : BinaryOp) (xs ys : List Lexeme),
      max xs.length (ys.length + 1) ≤ (xs ++ .op op :: ys).length := by
    intro op xs ys
    simp only [List.length_append, List.length_cons]
    omega
  induction h with
  | assign span hx hy ih =>
    obtain ⟨name, s, rfl⟩ := hx.exists_var
    refine ((climbs_of_target hx).binary span ih hy.length_pos rfl ?_ ?_ ?_ ?_ ?_ ?_).mono
      (binary_le _ _ _) <;> decide
  | @infixLeft c op _ _ _ _ span hop _ hy iha ihb =>
    refine (iha.binary span ihb hy.length_pos ?_ ?_ ?_ ?_ ?_ ?_ ?_).mono (binary_le _ _ _) <;>
      revert hop <;> cases c <;> cases op <;>
      simp [Category.operators, Category.tighter, Category.rank, Category.most, accepts,
        BinaryOp.precedence, BinaryOp.rightOperand, BinaryOp.isRightAssoc]
  | neg span h ih => exact ih.neg h.length_pos span
  | pow span _ hy iha ihb =>
    refine (iha.binary span ihb hy.length_pos rfl ?_ ?_ ?_ ?_ ?_ ?_).mono (binary_le _ _ _) <;>
      decide
  | num n span => exact climbs_num n span
  | ident name span => exact climbs_ident name span
  | paren h ih =>
    refine (ih.paren h.length_pos).mono ?_
    simp only [List.length_append, List.length_cons, List.length_nil]
    omega
  | @tighter c _ _ _ ih => exact ih.loosen c.rank_le_tighter

theorem reads_of_derives {room : Nat} (h : Derives .expr xs e) (hroom : xs.length ≤ room) :
    ReadsExpr room xs e :=
  (climbs_of_derives h).reads h.length_pos hroom

theorem reads_of_clause {room : Nat} {e : Option Expr} (h : Clause xs e)
    (hroom : xs.length ≤ room) : ∀ a ∈ e, ReadsExpr room xs a := by
  rintro a ha
  cases h with
  | absent => cases ha
  | present h =>
    cases ha
    exact reads_of_derives h hroom

end Expressions

/-! ## Statements -/

section Statements

variable {room : Nat} {block : TokenReader (List Stmt × Span)} {xs : List Lexeme} {stmt : Stmt}

/-- The reader reads every derived block of at most this many lexemes. -/
def CompleteBlock (room : Nat) (block : TokenReader (List Stmt × Span)) : Prop :=
  ∀ (bs : List Lexeme) (body : List Stmt), Block bs body → bs.length ≤ room →
    ReadsBlock block bs body

theorem statement_complete (hblock : CompleteBlock room block) (h : Statement xs stmt)
    (hroom : xs.length ≤ room) : ReadsStmt (statement room block) xs stmt := by
  cases h with
  | ifThen span hcond hbody =>
    simp only [List.cons_append, List.length_cons, List.length_append] at hroom
    exact .ifThen span (reads_of_derives hcond (by omega)) (hblock _ _ hbody (by omega))
  | whileLoop span hcond hbody =>
    simp only [List.cons_append, List.length_cons, List.length_append] at hroom
    exact .whileLoop span (reads_of_derives hcond (by omega)) (hblock _ _ hbody (by omega))
  | forLoop span hi hc hu hbody =>
    simp only [List.cons_append, List.length_cons, List.length_append] at hroom
    exact .forLoop span hi (reads_of_clause hi (by omega)) hc (reads_of_clause hc (by omega)) hu
      (reads_of_clause hu (by omega)) (hblock _ _ hbody (by omega))
  | block span hb => exact .blockStatement span hb (hblock _ _ hb hroom)
  | expr span he =>
    simp only [List.length_append, List.length_cons] at hroom
    exact .exprStatement span he (reads_of_derives he (by omega))

theorem statements_complete (hblock : CompleteBlock room block) :
    ∀ {body : List Stmt} {xs : List Lexeme}, Statements xs body → xs.length ≤ room →
      ReadsEach (statement room block) xs body := by
  intro body
  induction body with
  | nil =>
    intro xs h _
    cases h
    exact .nil
  | cons stmt body ih =>
    intro xs h hroom
    cases h with
    | cons hstmt hbody =>
      rw [List.length_append] at hroom
      exact .cons hstmt (statement_complete hblock hstmt (by omega)) (ih hbody (by omega))

end Statements

theorem block_complete (room : Nat) : CompleteBlock room (block room) := by
  induction room with
  | zero =>
    intro bs body h hroom
    obtain ⟨r, rfl⟩ := h.exists_cons
    exact absurd hroom (by simp)
  | succ room ih =>
    intro bs body h hroom
    cases h with
    | braces hbody =>
      simp only [List.cons_append, List.length_cons, List.length_append] at hroom
      exact (statements_complete ih hbody (by omega)).braces

end TokenReader

/-- Tokens that derive a program are read as it, unless the limit is less than their number. -/
theorem ofTokens_complete {ts : List Token} {limit : Int} {p : Program}
    (h : Statements (ts.map Token.lexeme) p) (hlimit : ts.length ≤ limit) :
    ∃ q, Program.ofTokens ts limit = .ok q ∧ sameTrees q p = true := by
  refine (TokenReader.statements_complete (TokenReader.block_complete _) h ?_).program
  rw [List.length_map]
  omega

/-- Tokens that derive an expression are read as it, unless the limit is less than their number. -/
theorem Expr.ofTokens_complete {ts : List Token} {limit : Int} {e : Expr}
    (h : Derives .expr (ts.map Token.lexeme) e) (hlimit : ts.length ≤ limit) :
    ∃ e', Expr.ofTokens ts limit = .ok e' ∧ e'.sameTree e = true := by
  have hroom : (ts.map Token.lexeme).length ≤ (TokenCursor.start ts limit).room := by
    rw [List.length_map]
    show ts.length ≤ (limit - 0).toNat
    omega
  obtain ⟨e', s', hsame, hts, hread⟩ := TokenReader.reads_of_derives h hroom
    (.start ts limit) ts [] rfl (List.append_nil ts).symm (stops_nil _)
  have hend : s'.rest = [] := by
    have hrest := hts.rest
    rwa [TokenCursor.start, List.self_eq_append_right] at hrest
  have hwhole : TokenReader.wholeExpression (.start ts limit) = .ok e' s' := by
    refine (bind_of_ok rfl).trans ((bind_of_ok hread).trans ?_)
    rw [bind_of_ok (TokenReader.peek_eq s'), hend]
    rfl
  refine ⟨e', ?_, hsame⟩
  unfold Expr.ofTokens readTokens
  rw [hwhole]

/-! ## The parser and the grammar -/

/-- The parser reads these tokens, up to spans, as just the programs that they derive: there is at
most one, and without one the parser fails with an error that points at a token. -/
structure DecidesGrammar (ts : List Token) (limit : Int) : Prop where
  accepts : ∀ body : Program,
    (∃ p, Program.ofTokens ts limit = .ok p ∧ sameTrees p body = true) ↔
      Statements (ts.map Token.lexeme) body
  unique : ∀ p q : Program, Statements (ts.map Token.lexeme) p →
    Statements (ts.map Token.lexeme) q → sameTrees p q = true
  rejects : (¬ ∃ body, Statements (ts.map Token.lexeme) body) →
    ∃ e, Program.ofTokens ts limit = .error e ∧ e.fault?.isSome = true

/-- A parser that may enter more levels than there are tokens decides the grammar. -/
theorem ofTokens_decidesGrammar {ts : List Token} {limit : Int} (hlimit : ts.length < limit) :
    DecidesGrammar ts limit where
  accepts body := by
    constructor
    · rintro ⟨p, hp, hsame⟩
      exact (ofTokens_sound hp).congr hsame
    · intro h
      exact ofTokens_complete h (Int.le_of_lt hlimit)
  unique p q hp hq := by
    obtain ⟨r, hr, hrp⟩ := ofTokens_complete hp (Int.le_of_lt hlimit)
    obtain ⟨r', hr', hrq⟩ := ofTokens_complete hq (Int.le_of_lt hlimit)
    rw [hr] at hr'
    cases hr'
    exact sameTrees_of_common hrp hrq
  rejects h := by
    cases hread : Program.ofTokens ts limit with
    | ok p => exact absurd ⟨p, ofTokens_sound hread⟩ h
    | error e => exact ⟨e, rfl, ofTokens_error_isSome hread⟩

/-- Five tokens, the statement `- x ^ 2;`, decide under six levels. -/
theorem ofTokens_decidesGrammar_neg_pow :
    DecidesGrammar [⟨.op .sub, .none⟩, ⟨.ident "x", .none⟩, ⟨.op .pow, .none⟩, ⟨.num 2, .none⟩,
      ⟨.semicolon, .none⟩] 6 :=
  ofTokens_decidesGrammar (by decide)

end Imp32
