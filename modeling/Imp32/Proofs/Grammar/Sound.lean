import Imp32.Proofs.Grammar
import Imp32.Proofs.Reading.Inversion

/-!
# What is read is derived

A reader of expressions or statements that succeeds has taken tokens whose lexemes derive its
result, under any limit of nesting (`expression_sound`, `block_sound`, `statement_sound`,
`ofTokens_sound`).

The invariant of the operator loop: the left operand that has been built is derived in some layer,
and the next operator, if there is one, binds no tighter than the layer allows, so the operand is
the left side that the operator's own layer asks for.
-/

namespace Imp32

open Grammar

/-- Nothing binds tighter than the power. -/
theorem stops_atom (rest : List Token) : Stops (Category.atom.rank + 1) rest := by
  intro op span r _
  cases op <;> decide

namespace TokenReader

/-- The reader gives derived expressions of the layer that its place asks for. -/
def Sound (inner : Nat → TokenReader Expr) : Prop :=
  ∀ least ≤ 6, ∀ s e s', inner least s = .ok e s' →
    ∃ ts, Consumes s ts s' ∧ Derives (.ofLeast least) (ts.map Token.lexeme) e ∧
      Stops least s'.rest

/-! ## Expressions -/

section Expressions

variable {inner : Nat → TokenReader Expr} {s s' : TokenCursor} {e lhs : Expr}

/-- An operand is an atom, or a negation that no power follows. -/
theorem operand_sound (hinner : Sound inner) (h : OperandRead inner s e s') :
    ∃ ts c, Consumes s ts s' ∧ Derives c (ts.map Token.lexeme) e ∧
      Category.un.rank ≤ c.rank ∧ Stops (c.rank + 1) s'.rest := by
  cases h with
  | value hr => exact ⟨_, .atom, .pass hr, .num _ _, by decide, stops_atom _⟩
  | var hr => exact ⟨_, .atom, .pass hr, .ident _ _, by decide, stops_atom _⟩
  | neg hr ha =>
    obtain ⟨ts, hts, hd, hstop⟩ := hinner _ (by decide) _ _ _ ha
    exact ⟨_, .un, .cons hr hts, .neg _ hd, by decide, hstop.mono (by decide)⟩
  | paren hr ha hclose =>
    obtain ⟨ts, hts, hd, -⟩ := hinner _ (by decide) _ _ _ ha
    refine ⟨_, .atom, (Consumes.cons hr hts).trans (.pass hclose), ?_, by decide, stops_atom _⟩
    rw [List.map_append]
    exact .paren hd

/-- An operand that an operator accepts is a variable where the operator assigns. -/
theorem exists_var_of_accepts {op : BinaryOp} (h : accepts op lhs = true) (hop : op = .assign) :
    ∃ name span, lhs = .var name span := by
  subst hop
  cases lhs <;> simp_all [accepts]

theorem Sound.length_le (hinner : Sound inner) {op : BinaryOp}
    (h : inner op.rightOperand s = .ok e s') : s'.rest.length ≤ s.rest.length := by
  obtain ⟨ts, hts, -⟩ := hinner _ (by cases op <;> decide) _ _ _ h
  exact hts.length_le

/-- The left operand is derived from the tokens behind the first cursor, in a layer that the place
allows and that the next operator leaves whole. -/
def LeftDerived (least : Nat) (s₀ : TokenCursor) (lhs : Expr) (s : TokenCursor) : Prop :=
  ∃ ts c, Consumes s₀ ts s ∧ Derives c (ts.map Token.lexeme) lhs ∧
    (Category.ofLeast least).rank ≤ c.rank ∧ Stops (c.rank + 1) s.rest

theorem LeftDerived.binary (hinner : Sound inner) {least : Nat} {s₀ : TokenCursor} {op : BinaryOp}
    {span : Span} {r : List Token} {rhs : Expr} (hr : s.rest = ⟨.op op, span⟩ :: r)
    (hprec : least ≤ op.precedence) (haccepts : accepts op lhs = true)
    (hrhs : inner op.rightOperand s.pass = .ok rhs s') (h : LeftDerived least s₀ lhs s) :
    LeftDerived least s₀ (.binary lhs op rhs (lhs.span.join rhs.span)) s' := by
  obtain ⟨ts, c, hts, hd, -, hfit⟩ := h
  obtain ⟨us, hus, hdr, hright⟩ := hinner _ (by cases op <;> decide) _ _ _ hrhs
  have hbinary := hd.binary (lhs.span.join rhs.span) (Nat.lt_succ_iff.1 (hfit op span r hr))
    (exists_var_of_accepts haccepts) hdr
  refine ⟨_, op.category, hts.trans (.cons hr hus), ?_, op.rank_ofLeast_le_category hprec,
    hright.mono op.rightOperand_le⟩
  rwa [List.map_append]

/-- The operator loop keeps its left operand derived. -/
theorem operators_sound (hinner : Sound inner) {least : Nat} {s₀ : TokenCursor}
    (hlhs : LeftDerived least s₀ lhs s) (h : operators inner least s.rest lhs s = .ok e s') :
    ∃ ts, Consumes s₀ ts s' ∧ Derives (.ofLeast least) (ts.map Token.lexeme) e ∧
      Stops least s'.rest := by
  obtain ⟨⟨ts, c, hts, hd, hc, -⟩, hstop⟩ := operators_induct hinner.length_le
    (fun hr hprec haccepts hrhs => LeftDerived.binary hinner hr hprec haccepts hrhs) s.rest
    (Nat.le_refl _) hlhs h
  exact ⟨ts, hts, hd.loosen hc, hstop⟩

end Expressions

theorem expression_sound (room : Nat) : Sound (expression room) := by
  induction room with
  | zero =>
    intro least _ s e s' h
    cases h
  | succ room ih =>
    intro least hleast s e s' h
    obtain ⟨lhs, s₁, s₂, hlhs, hops, rfl⟩ := expression_cases h
    obtain ⟨ts, c, hts, hd, hc, hfit⟩ := operand_sound ih hlhs
    have hleft : LeftDerived least _ lhs s₁ :=
      ⟨ts, c, hts, hd, Nat.le_trans (Category.rank_ofLeast_le_un hleast) hc, hfit⟩
    obtain ⟨us, hus, hd', hstop⟩ := operators_sound ih hleft hops
    exact ⟨us, hus.deeper, hd', hstop⟩

/-! ## Statements -/

section Statements

variable {room : Nat} {block : TokenReader (List Stmt × Span)} {s s' : TokenCursor}

/-- An expected token is taken. -/
theorem expect_sound {lexeme : Lexeme} {t : Token} (h : expect lexeme s = .ok t s') :
    Consumes s [t] s' ∧ [t].map Token.lexeme = [lexeme] := by
  obtain ⟨rfl, ht, r, hr⟩ := expect_eq_ok.1 h
  exact ⟨.pass hr, by simp [ht]⟩

theorem clause_sound {terminator : Lexeme} {e : Option Expr}
    (h : clause room terminator s = .ok e s') :
    ∃ ts, Consumes s ts s' ∧ Clause (ts.map Token.lexeme) e := by
  obtain ⟨rfl, rfl⟩ | ⟨a, rfl, ha⟩ := clause_cases h
  · exact ⟨[], .refl _, .absent⟩
  · obtain ⟨ts, hts, hd, -⟩ := expression_sound room _ (by decide) _ _ _ ha
    exact ⟨ts, hts, .present hd⟩

theorem condition_sound {e : Expr} (h : condition room s = .ok e s') :
    ∃ ts us : List Token, Consumes s us s' ∧ Derives .expr (ts.map Token.lexeme) e ∧
      us.map Token.lexeme = .leftParen :: ts.map Token.lexeme ++ [.rightParen] := by
  obtain ⟨o, s₁, s₂, c, ho, ha, hc⟩ := condition_cases h
  obtain ⟨ho, hol⟩ := expect_sound ho
  obtain ⟨hc, hcl⟩ := expect_sound hc
  obtain ⟨ts, hts, hd, -⟩ := expression_sound room _ (by decide) _ _ _ ha
  refine ⟨ts, _, (ho.trans hts).trans hc, hd, ?_⟩
  rw [List.map_append, List.map_append, hol, hcl]
  rfl

/-- The reader gives derived blocks. -/
def SoundBlock (block : TokenReader (List Stmt × Span)) : Prop :=
  ∀ s body span s', block s = .ok (body, span) s' →
    ∃ ts, Consumes s ts s' ∧ Block (ts.map Token.lexeme) body

theorem statement_sound (hblock : SoundBlock block) {stmt : Stmt}
    (h : statement room block s = .ok stmt s') :
    ∃ ts, Consumes s ts s' ∧ Statement (ts.map Token.lexeme) stmt := by
  cases statement_cases h with
  | ifThen hr he hb =>
    obtain ⟨ts, us, hus, hd, hul⟩ := condition_sound he
    obtain ⟨vs, hvs, hbody⟩ := hblock _ _ _ _ hb
    refine ⟨_, (Consumes.cons hr hus).trans hvs, ?_⟩
    simpa [hul] using Statement.ifThen _ hd hbody
  | whileLoop hr he hb =>
    obtain ⟨ts, us, hus, hd, hul⟩ := condition_sound he
    obtain ⟨vs, hvs, hbody⟩ := hblock _ _ _ _ hb
    refine ⟨_, (Consumes.cons hr hus).trans hvs, ?_⟩
    simpa [hul] using Statement.whileLoop _ hd hbody
  | forLoop hr ho hi hc₁ hcond hc₂ hu hc₃ hb =>
    obtain ⟨ho, hol⟩ := expect_sound ho
    obtain ⟨hc₁, hl₁⟩ := expect_sound hc₁
    obtain ⟨hc₂, hl₂⟩ := expect_sound hc₂
    obtain ⟨hc₃, hl₃⟩ := expect_sound hc₃
    obtain ⟨xs, hxs, hx⟩ := clause_sound hi
    obtain ⟨ys, hys, hy⟩ := clause_sound hcond
    obtain ⟨zs, hzs, hz⟩ := clause_sound hu
    obtain ⟨vs, hvs, hbody⟩ := hblock _ _ _ _ hb
    refine ⟨_, .cons hr <| ho.trans <| hxs.trans <| hc₁.trans <| hys.trans <| hc₂.trans <|
      hzs.trans <| hc₃.trans hvs, ?_⟩
    rw [List.map_cons]
    simp only [List.map_append, hol, hl₁, hl₂, hl₃]
    simpa using Statement.forLoop _ hx hy hz hbody
  | block hb =>
    obtain ⟨vs, hvs, hbody⟩ := hblock _ _ _ _ hb
    exact ⟨vs, hvs, .block _ hbody⟩
  | expr _ he hc =>
    obtain ⟨hc, hcl⟩ := expect_sound hc
    obtain ⟨ts, hts, hd, -⟩ := expression_sound room _ (by decide) _ _ _ he
    refine ⟨_, hts.trans hc, ?_⟩
    rw [List.map_append, hcl]
    exact .expr _ hd

/-- The statements of a block end in front of a right brace. -/
theorem statements_sound {statement : TokenReader Stmt}
    (hstatement : ∀ s stmt s', statement s = .ok stmt s' →
      ∃ ts, Consumes s ts s' ∧ Statement (ts.map Token.lexeme) stmt) :
    ∀ (count : List Token) {s : TokenCursor} {done body : List Stmt},
      s.rest.length ≤ count.length → statements statement count done s = .ok body s' →
      ∃ ts body', body = done.reverse ++ body' ∧ Consumes s ts s' ∧
        Statements (ts.map Token.lexeme) body' ∧
          ∃ t r, s'.rest = t :: r ∧ t.lexeme = .rightBrace := by
  intro count
  induction count with
  | nil =>
    intro s done body hlen h
    unfold statements at h
    obtain ⟨t, s₁, ht, -⟩ := bind_eq_ok.1 h
    obtain ⟨rfl, r, hr⟩ := current_eq_ok.1 ht
    simp [hr] at hlen
  | cons k count ih =>
    intro s done body hlen h
    unfold statements at h
    obtain ⟨t, s₁, ht, hk⟩ := bind_eq_ok.1 h
    obtain ⟨rfl, r, hr⟩ := current_eq_ok.1 ht
    split at hk
    · rename_i hclose
      obtain ⟨rfl, rfl⟩ := pure_eq_ok.1 hk
      exact ⟨[], [], by simp, .refl _, .nil, t, r, hr, hclose⟩
    · obtain ⟨stmt, s₂, hs, hrest⟩ := bind_eq_ok.1 hk
      obtain ⟨us, hus, hstmt⟩ := hstatement _ _ _ hs
      have hpos := hstmt.length_pos
      have hlen₂ : s₂.rest.length ≤ count.length := by
        have := congrArg List.length hus.rest
        simp only [List.length_append, List.length_map, List.length_cons] at this hpos hlen
        omega
      obtain ⟨ts, body', rfl, hts, hbody, hend⟩ := ih hlen₂ hrest
      refine ⟨us ++ ts, stmt :: body', by simp, hus.trans hts, ?_, hend⟩
      rw [List.map_append]
      exact .cons hstmt hbody

end Statements

theorem block_sound (room : Nat) : SoundBlock (block room) := by
  induction room with
  | zero =>
    intro s body span s' h
    obtain ⟨t, s₁, -, h⟩ := bind_eq_ok.1 h
    cases h
  | succ room ih =>
    intro s body span s' h
    obtain ⟨o, s₁, s₂, c, r, ho, hbody, hr, -, rfl⟩ := block_cases h
    obtain ⟨ho, hol⟩ := expect_sound ho
    obtain ⟨ts, body', rfl, hts, hd, t, r', hr', hclose⟩ :=
      statements_sound (s := { s₁ with depth := s₁.depth + 1 }) (fun _ _ _ => statement_sound ih) _
        (Nat.le_refl _) hbody
    obtain ⟨rfl, -⟩ := List.cons.inj (hr.symm.trans hr')
    have hpass : ({ s₂ with depth := s₂.depth - 1 } : TokenCursor).rest = c :: r := hr
    refine ⟨_, (ho.trans hts.deeper).trans (.pass hpass), ?_⟩
    rw [List.map_append, List.map_append, hol]
    simpa [hclose] using Block.braces hd

/-- The statements up to the last token are derived. -/
theorem statementsToEnd_sound {statement : TokenReader Stmt}
    (hstatement : ∀ s stmt s', statement s = .ok stmt s' →
      ∃ ts, Consumes s ts s' ∧ Statement (ts.map Token.lexeme) stmt) :
    ∀ (count : List Token) {s s' : TokenCursor} {done p : List Stmt},
      s.rest.length ≤ count.length → statementsToEnd statement count done s = .ok p s' →
      ∃ p', p = done.reverse ++ p' ∧ Statements (s.rest.map Token.lexeme) p' := by
  intro count
  induction count with
  | nil =>
    intro s s' done p hlen h
    have hr : s.rest = [] := List.eq_nil_of_length_eq_zero (Nat.le_zero.1 hlen)
    unfold statementsToEnd at h
    rw [bind_of_ok (peek_eq s), hr] at h
    obtain ⟨rfl, -⟩ := pure_eq_ok.1 h
    exact ⟨[], by simp, hr ▸ .nil⟩
  | cons k count ih =>
    intro s s' done p hlen h
    unfold statementsToEnd at h
    rw [bind_of_ok (peek_eq s)] at h
    cases hr : s.rest with
    | nil =>
      rw [hr] at h
      obtain ⟨rfl, -⟩ := pure_eq_ok.1 h
      exact ⟨[], by simp, .nil⟩
    | cons t r =>
      rw [hr] at h
      obtain ⟨stmt, s₁, hs, h⟩ := bind_eq_ok.1 h
      obtain ⟨us, hus, hstmt⟩ := hstatement _ _ _ hs
      have hpos := hstmt.length_pos
      have hlen₁ : s₁.rest.length ≤ count.length := by
        have := congrArg List.length hus.rest
        simp only [List.length_append, List.length_map, List.length_cons] at this hpos hlen
        omega
      obtain ⟨p', rfl, hp⟩ := ih hlen₁ h
      refine ⟨stmt :: p', by simp, ?_⟩
      rw [← hr, hus.rest, List.map_append]
      exact .cons hstmt hp

end TokenReader

/-- Tokens that are read as a program derive it, under any limit. -/
theorem ofTokens_sound {ts : List Token} {limit : Int} {p : Program}
    (h : Program.ofTokens ts limit = .ok p) : Statements (ts.map Token.lexeme) p := by
  obtain ⟨s, hread⟩ := Program.ofTokens_eq_ok.1 h
  obtain ⟨p', rfl, hd⟩ := TokenReader.statementsToEnd_sound
    (fun _ _ _ h => TokenReader.statement_sound (TokenReader.block_sound _) h) ts (Nat.le_refl _)
    hread
  exact hd

end Imp32
