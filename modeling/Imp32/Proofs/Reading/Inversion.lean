import Imp32.Proofs.Reading

/-!
# How a reader came to its result

What has been read, taken apart: an operand is read in one of four ways (`operand_cases`), a
statement in one of five (`statement_cases`), and what an operator leaves invariant the whole
operator loop does (`operators_induct`). Every property of what is read goes over these cases.
-/

namespace Imp32

/-- No operator stands first that binds at least as tightly as `least`. -/
def Stops (least : Nat) (rest : List Token) : Prop :=
  ∀ op span r, rest = ⟨.op op, span⟩ :: r → op.precedence < least

theorem Stops.mono {least least' : Nat} {rest : List Token} (h : Stops least rest)
    (hl : least ≤ least') : Stops least' rest :=
  fun op span r hr => Nat.lt_of_lt_of_le (h op span r hr) hl

theorem stops_nil (least : Nat) : Stops least [] := by
  intro op span r h
  cases h

theorem exists_op_of_not_stops {least : Nat} {rest : List Token} (h : ¬Stops least rest) :
    ∃ op span r, rest = ⟨.op op, span⟩ :: r ∧ least ≤ op.precedence := by
  unfold Stops at h
  simp only [Classical.not_forall, Nat.not_lt] at h
  obtain ⟨op, span, r, hr, hprec⟩ := h
  exact ⟨op, span, r, hr, hprec⟩

/-- Behind another lexeme than an operator, every expression is complete. -/
theorem stops_of_lexeme {least : Nat} {t : Token} {r : List Token}
    (h : ∀ op, t.lexeme ≠ .op op) : Stops least (t :: r) := by
  intro op span r' hr
  cases hr
  exact absurd rfl (h op)

namespace TokenReader

/-! ## Expressions -/

/-- How an operand is read. -/
inductive OperandRead (inner : Nat → TokenReader Expr) (s : TokenCursor) :
    Expr → TokenCursor → Prop
  | value {n : Int} {span : Span} {r : List Token} :
    s.rest = ⟨.num n, span⟩ :: r → OperandRead inner s (.value n span) s.pass
  | var {name : String} {span : Span} {r : List Token} :
    s.rest = ⟨.ident name, span⟩ :: r → OperandRead inner s (.var name span) s.pass
  | neg {span : Span} {r : List Token} {a : Expr} {s' : TokenCursor} :
    s.rest = ⟨.op .sub, span⟩ :: r → inner Precedence.unary s.pass = .ok a s' →
      OperandRead inner s (.neg a (span.join a.span)) s'
  | paren {span close : Span} {r r' : List Token} {a : Expr} {s' : TokenCursor} :
    s.rest = ⟨.leftParen, span⟩ :: r → inner Precedence.lowest s.pass = .ok a s' →
      s'.rest = ⟨.rightParen, close⟩ :: r' → OperandRead inner s a s'.pass

section Expressions

variable {inner : Nat → TokenReader Expr} {s s' : TokenCursor} {e lhs : Expr}

theorem operand_cases (h : operand inner s = .ok e s') : OperandRead inner s e s' := by
  unfold operand at h
  obtain ⟨t, s₁, ht, hk⟩ := bind_eq_ok.1 h
  obtain ⟨rfl, r, hr⟩ := current_eq_ok.1 ht
  obtain ⟨lexeme, span⟩ := t
  cases lexeme with
  | num n =>
    obtain ⟨rfl, rfl⟩ := pure_eq_ok.1 (hk : (pure _ : TokenReader Expr) s₁.pass = _)
    exact .value hr
  | ident name =>
    obtain ⟨rfl, rfl⟩ := pure_eq_ok.1 (hk : (pure _ : TokenReader Expr) s₁.pass = _)
    exact .var hr
  | op op =>
    cases op with
    | sub =>
      dsimp only at hk
      rw [bind_of_ok (pass_eq s₁)] at hk
      obtain ⟨a, s₂, ha, hk⟩ := bind_eq_ok.1 hk
      obtain ⟨rfl, rfl⟩ := pure_eq_ok.1 hk
      exact .neg hr ha
    | _ => cases hk
  | leftParen =>
    dsimp only at hk
    rw [bind_of_ok (pass_eq s₁)] at hk
    obtain ⟨a, s₂, ha, hk⟩ := bind_eq_ok.1 hk
    rw [bind_of_ok (peek_eq s₂)] at hk
    cases hr₂ : s₂.rest with
    | nil => rw [hr₂] at hk; cases hk
    | cons u r₂ =>
      obtain ⟨close, cspan⟩ := u
      rw [hr₂] at hk
      cases close with
      | rightParen =>
        obtain ⟨rfl, rfl⟩ := pure_eq_ok.1 (hk : (pure _ : TokenReader Expr) s₂.pass = _)
        exact .paren hr ha hr₂
      | _ => cases hk
  | _ => cases hk

/-- What holds of the first left operand, and is kept whenever an operator and its right operand
are taken, holds of the result. The count is long enough to be no bound. -/
theorem operators_induct {least : Nat} {I : Expr → TokenCursor → Prop}
    (hshort : ∀ {op s rhs s₁}, inner (BinaryOp.rightOperand op) s = .ok rhs s₁ →
      s₁.rest.length ≤ s.rest.length)
    (hstep : ∀ {op span r s lhs rhs s₁}, s.rest = ⟨.op op, span⟩ :: r → least ≤ op.precedence →
      accepts op lhs = true → inner op.rightOperand s.pass = .ok rhs s₁ → I lhs s →
      I (.binary lhs op rhs (lhs.span.join rhs.span)) s₁) :
    ∀ (count : List Token) {s : TokenCursor} {lhs : Expr}, s.rest.length ≤ count.length →
      I lhs s → operators inner least count lhs s = .ok e s' → I e s' ∧ Stops least s'.rest := by
  intro count
  induction count with
  | nil =>
    intro s lhs hlen hI h
    obtain ⟨rfl, rfl⟩ := pure_eq_ok.1 h
    have hrest : s.rest = [] := List.eq_nil_of_length_eq_zero (Nat.le_zero.1 hlen)
    exact ⟨hI, hrest ▸ stops_nil least⟩
  | cons k count ih =>
    intro s lhs hlen hI h
    have stop : (pure lhs : TokenReader Expr) s = .ok e s' → Stops least s.rest →
        I e s' ∧ Stops least s'.rest := by
      intro h hstop
      obtain ⟨rfl, rfl⟩ := pure_eq_ok.1 h
      exact ⟨hI, hstop⟩
    unfold operators at h
    rw [bind_of_ok (peek_eq s)] at h
    cases hr : s.rest with
    | nil => rw [hr] at h; exact stop h (hr ▸ stops_nil least)
    | cons t r =>
      obtain ⟨lexeme, span⟩ := t
      rw [hr] at h
      cases lexeme with
      | op op =>
        dsimp only [List.head?_cons] at h
        split at h
        · rename_i hprec
          refine stop h ?_
          intro op' span' r' hr'
          rw [hr] at hr'
          cases hr'
          exact hprec
        · rename_i hprec
          rw [bind_of_ok (pass_eq s)] at h
          split at h
          · cases h
          · rename_i haccepts
            obtain ⟨rhs, s₁, hrhs, h⟩ := bind_eq_ok.1 h
            have hlen₁ : s₁.rest.length ≤ count.length := by
              have := hshort hrhs
              rw [TokenCursor.rest_pass, hr] at this
              rw [hr] at hlen
              simp only [List.length_cons, List.tail_cons] at hlen this
              omega
            exact ih hlen₁ (hstep hr (Nat.le_of_not_lt hprec) (by simpa using haccepts) hrhs hI) h
      | _ => exact stop h (hr ▸ stops_of_lexeme (by simp))

/-- An expression is an operand with the operators behind it, read one level deeper. -/
theorem expression_cases {room least : Nat} (h : expression (room + 1) least s = .ok e s') :
    ∃ lhs s₁ s₂, OperandRead (expression room) { s with depth := s.depth + 1 } lhs s₁ ∧
      operators (expression room) least s₁.rest lhs s₁ = .ok e s₂ ∧
      s' = { s₂ with depth := s₂.depth - 1 } := by
  unfold expression at h
  obtain ⟨s₂, hbody, rfl⟩ := deeper_eq_ok.1 h
  obtain ⟨lhs, s₁, hlhs, hops⟩ := bind_eq_ok.1 hbody
  rw [bind_of_ok (unread_eq s₁)] at hops
  exact ⟨lhs, s₁, s₂, operand_cases hlhs, hops, rfl⟩

end Expressions

/-! ## Statements -/

section Statements

variable {room : Nat} {block : TokenReader (List Stmt × Span)} {s s' : TokenCursor}

theorem clause_cases {terminator : Lexeme} {e : Option Expr}
    (h : clause room terminator s = .ok e s') :
    (e = none ∧ s' = s) ∨
      ∃ a, e = some a ∧ expression room Precedence.lowest s = .ok a s' := by
  have present : (some <$> expression room Precedence.lowest) s = .ok e s' →
      ∃ a, e = some a ∧ expression room Precedence.lowest s = .ok a s' := by
    intro h
    rw [← bind_pure_comp] at h
    obtain ⟨a, s₁, ha, h⟩ := bind_eq_ok.1 h
    obtain ⟨rfl, rfl⟩ := pure_eq_ok.1 h
    exact ⟨a, rfl, ha⟩
  unfold clause at h
  rw [bind_of_ok (peek_eq s)] at h
  cases hr : s.rest with
  | nil => rw [hr] at h; exact .inr (present h)
  | cons t r =>
    rw [hr] at h
    dsimp only [List.head?_cons] at h
    split at h
    · obtain ⟨rfl, rfl⟩ := pure_eq_ok.1 h
      exact .inl ⟨rfl, rfl⟩
    · exact .inr (present h)

theorem condition_cases {e : Expr} (h : condition room s = .ok e s') :
    ∃ o s₁ s₂ c, expect .leftParen s = .ok o s₁ ∧
      expression room Precedence.lowest s₁ = .ok e s₂ ∧ expect .rightParen s₂ = .ok c s' := by
  unfold condition at h
  obtain ⟨o, s₁, ho, h⟩ := bind_eq_ok.1 h
  obtain ⟨a, s₂, ha, h⟩ := bind_eq_ok.1 h
  obtain ⟨c, s₃, hc, h⟩ := bind_eq_ok.1 h
  obtain ⟨rfl, rfl⟩ := pure_eq_ok.1 h
  exact ⟨o, s₁, s₂, c, ho, ha, hc⟩

/-- How a statement is read. -/
inductive StatementRead (room : Nat) (block : TokenReader (List Stmt × Span)) (s : TokenCursor) :
    Stmt → TokenCursor → Prop
  | ifThen {span bspan : Span} {r : List Token} {cond : Expr} {body : List Stmt}
      {s₁ s' : TokenCursor} :
    s.rest = ⟨.ifWord, span⟩ :: r → condition room s.pass = .ok cond s₁ →
      block s₁ = .ok (body, bspan) s' →
      StatementRead room block s (.ifThen cond body (span.join bspan)) s'
  | whileLoop {span bspan : Span} {r : List Token} {cond : Expr} {body : List Stmt}
      {s₁ s' : TokenCursor} :
    s.rest = ⟨.whileWord, span⟩ :: r → condition room s.pass = .ok cond s₁ →
      block s₁ = .ok (body, bspan) s' →
      StatementRead room block s (.whileLoop cond body (span.join bspan)) s'
  | forLoop {span bspan : Span} {r : List Token} {o c₁ c₂ c₃ : Token}
      {init cond update : Option Expr} {body : List Stmt}
      {s₁ s₂ s₃ s₄ s₅ s₆ s₇ s' : TokenCursor} :
    s.rest = ⟨.forWord, span⟩ :: r → expect .leftParen s.pass = .ok o s₁ →
      clause room .semicolon s₁ = .ok init s₂ → expect .semicolon s₂ = .ok c₁ s₃ →
      clause room .semicolon s₃ = .ok cond s₄ → expect .semicolon s₄ = .ok c₂ s₅ →
      clause room .rightParen s₅ = .ok update s₆ → expect .rightParen s₆ = .ok c₃ s₇ →
      block s₇ = .ok (body, bspan) s' →
      StatementRead room block s (.forLoop init cond update body (span.join bspan)) s'
  | block {bspan : Span} {body : List Stmt} {s' : TokenCursor} :
    block s = .ok (body, bspan) s' → StatementRead room block s (.block body bspan) s'
  | expr {t c : Token} {r : List Token} {e : Expr} {s₁ s' : TokenCursor} :
    s.rest = t :: r → expression room Precedence.lowest s = .ok e s₁ →
      expect .semicolon s₁ = .ok c s' →
      StatementRead room block s (.expr e (t.span.join c.span)) s'

theorem statement_cases {stmt : Stmt} (h : statement room block s = .ok stmt s') :
    StatementRead room block s stmt s' := by
  unfold statement at h
  obtain ⟨t, s₁, ht, hk⟩ := bind_eq_ok.1 h
  obtain ⟨rfl, r, hr⟩ := current_eq_ok.1 ht
  have simple : (do
      let e ← expression room Precedence.lowest
      let semicolon ← expect .semicolon
      return Stmt.expr e (t.span.join semicolon.span)) s₁ = .ok stmt s' →
      StatementRead room block s₁ stmt s' := by
    intro h
    obtain ⟨e, s₂, he, h⟩ := bind_eq_ok.1 h
    obtain ⟨c, s₃, hc, h⟩ := bind_eq_ok.1 h
    obtain ⟨rfl, rfl⟩ := pure_eq_ok.1 h
    exact .expr hr he hc
  obtain ⟨lexeme, span⟩ := t
  cases lexeme with
  | ifWord =>
    dsimp only at hk
    rw [bind_of_ok (pass_eq s₁)] at hk
    obtain ⟨e, s₂, he, hk⟩ := bind_eq_ok.1 hk
    obtain ⟨⟨body, bspan⟩, s₃, hb, hk⟩ := bind_eq_ok.1 hk
    obtain ⟨rfl, rfl⟩ := pure_eq_ok.1 hk
    exact .ifThen hr he hb
  | whileWord =>
    dsimp only at hk
    rw [bind_of_ok (pass_eq s₁)] at hk
    obtain ⟨e, s₂, he, hk⟩ := bind_eq_ok.1 hk
    obtain ⟨⟨body, bspan⟩, s₃, hb, hk⟩ := bind_eq_ok.1 hk
    obtain ⟨rfl, rfl⟩ := pure_eq_ok.1 hk
    exact .whileLoop hr he hb
  | forWord =>
    dsimp only at hk
    rw [bind_of_ok (pass_eq s₁)] at hk
    obtain ⟨o, s₂, ho, hk⟩ := bind_eq_ok.1 hk
    obtain ⟨init, s₃, hi, hk⟩ := bind_eq_ok.1 hk
    obtain ⟨c₁, s₄, hc₁, hk⟩ := bind_eq_ok.1 hk
    obtain ⟨cond, s₅, hcond, hk⟩ := bind_eq_ok.1 hk
    obtain ⟨c₂, s₆, hc₂, hk⟩ := bind_eq_ok.1 hk
    obtain ⟨update, s₇, hu, hk⟩ := bind_eq_ok.1 hk
    obtain ⟨c₃, s₈, hc₃, hk⟩ := bind_eq_ok.1 hk
    obtain ⟨⟨body, bspan⟩, s₉, hb, hk⟩ := bind_eq_ok.1 hk
    obtain ⟨rfl, rfl⟩ := pure_eq_ok.1 hk
    exact .forLoop hr ho hi hc₁ hcond hc₂ hu hc₃ hb
  | leftBrace =>
    obtain ⟨⟨body, bspan⟩, s₂, hb, hk⟩ := bind_eq_ok.1
      (hk : (block >>= fun x => (pure (.block x.1 x.2) : TokenReader Stmt)) s₁ = _)
    obtain ⟨rfl, rfl⟩ := pure_eq_ok.1 hk
    exact .block hb
  | _ => exact simple hk

/-- A block is its statements between braces, read one level deeper. -/
theorem block_cases {room : Nat} {body : List Stmt} {span : Span} {s s' : TokenCursor}
    (h : TokenReader.block (room + 1) s = .ok (body, span) s') :
    ∃ o s₁ s₂ c r, expect .leftBrace s = .ok o s₁ ∧
      statements (statement room (TokenReader.block room)) s₁.rest []
        { s₁ with depth := s₁.depth + 1 } = .ok body s₂ ∧
      s₂.rest = c :: r ∧ span = o.span.join c.span ∧
      s' = { s₂ with depth := s₂.depth - 1 }.pass := by
  unfold TokenReader.block at h
  obtain ⟨o, s₁, ho, h⟩ := bind_eq_ok.1 h
  obtain ⟨stmts, s₂, hs, h⟩ := bind_eq_ok.1 h
  obtain ⟨s₃, hin, rfl⟩ := deeper_eq_ok.1 hs
  rw [bind_of_ok (unread_eq _)] at hin
  obtain ⟨c, s₄, hc, hk⟩ := bind_eq_ok.1 h
  obtain ⟨rfl, r, hr⟩ := current_eq_ok.1 hc
  rw [bind_of_ok (pass_eq _)] at hk
  obtain ⟨heq, rfl⟩ := pure_eq_ok.1 hk
  obtain ⟨rfl, rfl⟩ := Prod.mk.inj heq
  exact ⟨o, s₁, s₃, c, r, ho, hin, hr, rfl, rfl⟩

/-! ### The loops over statements -/

section Loops

variable {stmt : TokenReader Stmt} {done : List Stmt} {t k : Token} {r : List Token}

theorem statements_of_nil (count : List Token) (hr : s.rest = []) :
    statements stmt count done s = .error .unexpectedEnd s := by
  have hcurrent : current s = .error .unexpectedEnd s := by
    unfold current
    rw [bind_of_ok (peek_eq s), hr]
    rfl
  unfold statements
  exact bind_of_error hcurrent

theorem statements_of_brace (count : List Token) (hr : s.rest = t :: r)
    (ht : t.lexeme = .rightBrace) : statements stmt count done s = .ok done.reverse s := by
  unfold statements
  rw [bind_of_ok (current_of_rest hr), if_pos ht]
  rfl

theorem statements_of_cons (count : List Token) (hr : s.rest = t :: r)
    (ht : t.lexeme ≠ .rightBrace) : statements stmt (k :: count) done s =
      (stmt >>= fun a => statements stmt count (a :: done)) s := by
  conv =>
    lhs
    unfold statements
  rw [bind_of_ok (current_of_rest hr), if_neg ht]

theorem statementsToEnd_of_nil (count : List Token) (hr : s.rest = []) :
    statementsToEnd stmt count done s = .ok done.reverse s := by
  unfold statementsToEnd
  rw [bind_of_ok (peek_eq s), hr]
  rfl

theorem statementsToEnd_of_cons (count : List Token) (hr : s.rest = t :: r) :
    statementsToEnd stmt (k :: count) done s =
      (stmt >>= fun a => statementsToEnd stmt count (a :: done)) s := by
  conv =>
    lhs
    unfold statementsToEnd
  rw [bind_of_ok (peek_eq s), hr]
  rfl

/-- A loop over statements: some next tokens end it, and behind the others it reads a statement and
goes on. The list counts the statements. -/
structure LoopsBy (finish : Option Token → Option (List Stmt → TokenReader (List Stmt)))
    (stmt : TokenReader Stmt) (loop : List Token → List Stmt → TokenReader (List Stmt)) :
    Prop where
  ends {s : TokenCursor} {last : List Stmt → TokenReader (List Stmt)} (count : List Token)
    (done : List Stmt) : finish s.rest.head? = some last → loop count done s = last done s
  goes {s : TokenCursor} (k : Token) (count : List Token) (done : List Stmt) :
    finish s.rest.head? = none →
      loop (k :: count) done s = (stmt >>= fun a => loop count (a :: done)) s
  starves {s : TokenCursor} (done : List Stmt) :
    finish s.rest.head? = none → loop [] done s = .ok done.reverse s
  /-- The loop does not go on behind the last token. -/
  needs : finish none ≠ none

def finishBlock : Option Token → Option (List Stmt → TokenReader (List Stmt))
  | none => some fun _ => throw .unexpectedEnd
  | some t => if t.lexeme = .rightBrace then some fun done => return done.reverse else none

/-- What ends the statements of a program. -/
def finishProgram : Option Token → Option (List Stmt → TokenReader (List Stmt))
  | none => some fun done => return done.reverse
  | some _ => none

theorem statements_loopsBy (stmt : TokenReader Stmt) :
    LoopsBy finishBlock stmt (statements stmt) where
  ends {s last} count done h := by
    cases hr : s.rest with
    | nil =>
      rw [hr] at h
      cases h
      exact statements_of_nil count hr
    | cons t r =>
      rw [hr, List.head?_cons, finishBlock] at h
      split at h
      · rename_i ht
        cases h
        exact statements_of_brace count hr ht
      · cases h
  goes {s} k count done h := by
    cases hr : s.rest with
    | nil => rw [hr] at h; cases h
    | cons t r =>
      rw [hr, List.head?_cons, finishBlock] at h
      split at h
      · cases h
      · rename_i ht
        exact statements_of_cons count hr ht
  starves {s} done h := by
    cases hr : s.rest with
    | nil => rw [hr] at h; cases h
    | cons t r =>
      unfold statements
      rw [bind_of_ok (current_of_rest hr)]
      split <;> rfl
  needs := nofun

theorem statementsToEnd_loopsBy (stmt : TokenReader Stmt) :
    LoopsBy finishProgram stmt (statementsToEnd stmt) where
  ends {s last} count done h := by
    cases hr : s.rest with
    | nil =>
      rw [hr] at h
      cases h
      exact statementsToEnd_of_nil count hr
    | cons t r => rw [hr] at h; cases h
  goes {s} k count done h := by
    cases hr : s.rest with
    | nil => rw [hr] at h; cases h
    | cons t r => exact statementsToEnd_of_cons count hr
  starves {s} done h := by
    cases hr : s.rest with
    | nil => rw [hr] at h; cases h
    | cons t r =>
      unfold statementsToEnd
      rw [bind_of_ok (peek_eq s), hr]
      rfl
  needs := nofun

/-- The loop of a block ends with the statements that it has read. -/
theorem finishBlock_last {t : Option Token} {last : List Stmt → TokenReader (List Stmt)}
    {done body : List Stmt} {s s' : TokenCursor} (h : finishBlock t = some last)
    (hlast : last done s = .ok body s') : body = done.reverse ∧ s' = s := by
  cases t with
  | none =>
    cases h
    cases hlast
  | some t =>
    rw [finishBlock] at h
    by_cases ht : t.lexeme = .rightBrace
    · rw [if_pos ht] at h
      cases h
      cases hlast
      exact ⟨rfl, rfl⟩
    · rw [if_neg ht] at h
      cases h

/-- The loop of a program ends with the statements that it has read. -/
theorem finishProgram_last {t : Option Token} {last : List Stmt → TokenReader (List Stmt)}
    {done body : List Stmt} {s s' : TokenCursor} (h : finishProgram t = some last)
    (hlast : last done s = .ok body s') : body = done.reverse ∧ s' = s := by
  cases t with
  | none =>
    cases h
    cases hlast
    exact ⟨rfl, rfl⟩
  | some t => cases h

end Loops

/-- What the reader of statements gives, the statements of a block are. -/
theorem statements_each {statement : TokenReader Stmt} {P : Stmt → Prop}
    (hstatement : ∀ s stmt s', statement s = .ok stmt s' → P stmt) :
    ∀ (count : List Token) {s : TokenCursor} {done body : List Stmt}, (∀ x ∈ done, P x) →
      statements statement count done s = .ok body s' → ∀ x ∈ body, P x := by
  intro count
  induction count with
  | nil =>
    intro s done body hdone h
    unfold statements at h
    obtain ⟨t, s₁, -, hk⟩ := bind_eq_ok.1 h
    have hbody : body = done.reverse := by
      split at hk <;> exact (pure_eq_ok.1 hk).1.symm
    simpa [hbody] using hdone
  | cons k count ih =>
    intro s done body hdone h
    unfold statements at h
    obtain ⟨t, s₁, ht, hk⟩ := bind_eq_ok.1 h
    split at hk
    · obtain ⟨rfl, rfl⟩ := pure_eq_ok.1 hk
      simpa using hdone
    · obtain ⟨stmt, s₂, hs, hrest⟩ := bind_eq_ok.1 hk
      exact ih (List.forall_mem_cons.2 ⟨hstatement _ _ _ hs, hdone⟩) hrest

/-- What the reader of statements gives, the statements of a program are. -/
theorem statementsToEnd_each {statement : TokenReader Stmt} {P : Stmt → Prop}
    (hstatement : ∀ s stmt s', statement s = .ok stmt s' → P stmt) :
    ∀ (count : List Token) {s : TokenCursor} {done p : List Stmt}, (∀ x ∈ done, P x) →
      statementsToEnd statement count done s = .ok p s' → ∀ x ∈ p, P x := by
  intro count
  induction count with
  | nil =>
    intro s done p hdone h
    unfold statementsToEnd at h
    rw [bind_of_ok (peek_eq s)] at h
    have hp : p = done.reverse := by
      cases hr : s.rest <;> rw [hr] at h <;> exact (pure_eq_ok.1 h).1.symm
    simpa [hp] using hdone
  | cons k count ih =>
    intro s done p hdone h
    unfold statementsToEnd at h
    rw [bind_of_ok (peek_eq s)] at h
    cases hr : s.rest with
    | nil =>
      rw [hr] at h
      obtain ⟨rfl, rfl⟩ := pure_eq_ok.1 h
      simpa using hdone
    | cons t r =>
      rw [hr] at h
      obtain ⟨stmt, s₁, hs, h⟩ := bind_eq_ok.1 h
      exact ih (List.forall_mem_cons.2 ⟨hstatement _ _ _ hs, hdone⟩) h

end Statements

end TokenReader

/-! ## Whole programs -/

theorem TokenCursor.room_start (ts : List Token) (limit : Int) :
    (TokenCursor.start ts limit).room = limit.toNat := by
  simp [TokenCursor.room, TokenCursor.start]

/-- A program is read as statements up to the last token, in the room that the limit leaves. -/
theorem TokenReader.program_start (ts : List Token) (limit : Int) :
    program (TokenCursor.start ts limit) =
      statementsToEnd (statement limit.toNat (block limit.toNat)) ts []
        (TokenCursor.start ts limit) := by
  rw [← TokenCursor.room_start ts limit]
  rfl

theorem Program.ofTokens_eq_ok {ts : List Token} {limit : Int} {p : Program} :
    Program.ofTokens ts limit = .ok p ↔
      ∃ s, TokenReader.statementsToEnd
        (TokenReader.statement limit.toNat (TokenReader.block limit.toNat)) ts []
        (TokenCursor.start ts limit) = .ok p s := by
  unfold Program.ofTokens readTokens
  rw [TokenReader.program_start]
  split
  · rename_i hread
    simp [hread]
  · rename_i hread
    simp [hread]

/-- A text is read by its tokens. -/
theorem Program.parse_eq_ok {source : String} {limit : Int} {p : Program} :
    Program.parse source limit = .ok p ↔
      ∃ ts, tokens source = .ok ts ∧ Program.ofTokens ts limit = .ok p := by
  unfold Program.parse readText
  cases tokens source with
  | error e =>
    constructor
    · rintro ⟨⟩
    · rintro ⟨ts, ⟨⟩, -⟩
  | ok ts =>
    change (Program.ofTokens ts limit).mapError Failure.parse = .ok p ↔ _
    cases hp : Program.ofTokens ts limit with
    | error e =>
      constructor
      · rintro ⟨⟩
      · rintro ⟨ts', ⟨⟩, h⟩
        rw [hp] at h
        cases h
    | ok q =>
      constructor
      · rintro ⟨⟩
        exact ⟨ts, rfl, hp⟩
      · rintro ⟨ts', ⟨⟩, h⟩
        rw [hp] at h
        cases h
        rfl

end Imp32
