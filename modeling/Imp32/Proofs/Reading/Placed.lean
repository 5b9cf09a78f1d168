import Imp32.Proofs.Grammar.Sound
import Imp32.Proofs.Nodes

/-!
# Trees in their place

The grammar over tokens instead of lexemes, with the spans: which tokens a node stands at and which
span it has. A parenthesis belongs to the tokens of an expression but not to its span, and a
statement has the span of all its tokens. What the parser reads stands in its place
(`ofTokens_placed`).

Expressions are placed without the layers of the grammar; that the tokens of a whole expression
derive it as well is `Whole`. The expressions of a program stand at pieces of its tokens, one behind
the other (`Statements.cut`), and each statement at tokens that follow each other
(`Statements.each_holds`).
-/

namespace Imp32

namespace Placed

/-- The expression stands at the tokens. -/
inductive Expression : List Token → Expr → Prop
  | value (n : Int) (span : Span) : Expression [⟨.num n, span⟩] (.value n span)
  | var (name : String) (span : Span) : Expression [⟨.ident name, span⟩] (.var name span)
  | neg {ts : List Token} {a : Expr} (span : Span) :
    Expression ts a → Expression (⟨.op .sub, span⟩ :: ts) (.neg a (span.join a.span))
  | binary {xs ys : List Token} {a b : Expr} (op : BinaryOp) (span : Span) :
    Expression xs a → Expression ys b →
      Expression (xs ++ ⟨.op op, span⟩ :: ys) (.binary a op b (a.span.join b.span))
  | paren {ts : List Token} {e : Expr} (o c : Span) :
    Expression ts e → Expression (⟨.leftParen, o⟩ :: ts ++ [⟨.rightParen, c⟩]) e

/-- The tokens derive the expression, which stands at them. -/
structure Whole (ts : List Token) (e : Expr) : Prop where
  derives : Grammar.Derives .expr (ts.map Token.lexeme) e
  placed : Expression ts e

/-- The clause stands at the tokens. -/
inductive Clause : List Token → Option Expr → Prop
  | absent : Clause [] none
  | present {ts : List Token} {e : Expr} : Whole ts e → Clause ts (some e)

mutual

/-- The statement stands at the tokens. -/
inductive Statement : List Token → Stmt → Prop
  | ifThen {ts bs : List Token} {cond : Expr} {body : List Stmt} {bspan : Span} (span o c : Span) :
    Whole ts cond → Block bs body bspan →
      Statement (⟨.ifWord, span⟩ :: ⟨.leftParen, o⟩ :: ts ++ ⟨.rightParen, c⟩ :: bs)
        (.ifThen cond body (span.join bspan))
  | whileLoop {ts bs : List Token} {cond : Expr} {body : List Stmt} {bspan : Span}
      (span o c : Span) :
    Whole ts cond → Block bs body bspan →
      Statement (⟨.whileWord, span⟩ :: ⟨.leftParen, o⟩ :: ts ++ ⟨.rightParen, c⟩ :: bs)
        (.whileLoop cond body (span.join bspan))
  | forLoop {xs ys zs bs : List Token} {init cond update : Option Expr} {body : List Stmt}
      {bspan : Span} (span o c₁ c₂ c₃ : Span) :
    Clause xs init → Clause ys cond → Clause zs update → Block bs body bspan →
      Statement (⟨.forWord, span⟩ :: ⟨.leftParen, o⟩ :: xs ++ ⟨.semicolon, c₁⟩ :: ys ++
        ⟨.semicolon, c₂⟩ :: zs ++ ⟨.rightParen, c₃⟩ :: bs)
        (.forLoop init cond update body (span.join bspan))
  | block {bs : List Token} {body : List Stmt} {bspan : Span} :
    Block bs body bspan → Statement bs (.block body bspan)
  | expr {t : Token} {ts : List Token} {e : Expr} (c : Span) :
    Whole (t :: ts) e → Statement (t :: ts ++ [⟨.semicolon, c⟩]) (.expr e (t.span.join c))

/-- The block stands at the tokens and has the span. -/
inductive Block : List Token → List Stmt → Span → Prop
  | braces {ts : List Token} {body : List Stmt} (o c : Span) :
    Statements ts body → Block (⟨.leftBrace, o⟩ :: ts ++ [⟨.rightBrace, c⟩]) body (o.join c)

/-- The statements stand at the tokens in order. -/
inductive Statements : List Token → List Stmt → Prop
  | nil : Statements [] []
  | cons {xs ys : List Token} {s : Stmt} {rest : List Stmt} :
    Statement xs s → Statements ys rest → Statements (xs ++ ys) (s :: rest)

end

/-! ## The tokens derive what stands at them -/

theorem Clause.derives {ts : List Token} {e : Option Expr} (h : Clause ts e) :
    Grammar.Clause (ts.map Token.lexeme) e := by
  cases h with
  | absent => exact .absent
  | present h => exact .present h.derives

mutual

theorem Statement.derives : ∀ {ts : List Token} {s : Stmt}, Statement ts s →
    Grammar.Statement (ts.map Token.lexeme) s
  | _, _, .ifThen span o c hcond hb => by
    simpa using Grammar.Statement.ifThen (span.join _) hcond.derives hb.derives
  | _, _, .whileLoop span o c hcond hb => by
    simpa using Grammar.Statement.whileLoop (span.join _) hcond.derives hb.derives
  | _, _, .forLoop span o c₁ c₂ c₃ hi hc hu hb => by
    simpa using Grammar.Statement.forLoop (span.join _) hi.derives hc.derives hu.derives hb.derives
  | _, _, .block hb => .block _ hb.derives
  | _, _, .expr (t := t) c he => by
    simpa using Grammar.Statement.expr (t.span.join c) he.derives

theorem Block.derives : ∀ {ts : List Token} {body : List Stmt} {span : Span},
    Block ts body span → Grammar.Block (ts.map Token.lexeme) body
  | _, _, _, .braces o c h => by simpa using Grammar.Block.braces h.derives

theorem Statements.derives : ∀ {ts : List Token} {p : List Stmt}, Statements ts p →
    Grammar.Statements (ts.map Token.lexeme) p
  | _, _, .nil => .nil
  | _, _, .cons h hrest => by simpa using Grammar.Statements.cons h.derives hrest.derives

end

/-! ## Where the nodes of a program stand -/

/-- The expressions stand at pieces of the tokens, in order and with other tokens between them. -/
inductive Cut : List Token → List Expr → Prop
  | nil (ts : List Token) : Cut ts []
  | cons {us rest : List Token} {e : Expr} {es : List Expr} (xs : List Token) :
    Whole us e → Cut rest es → Cut (xs ++ (us ++ rest)) (e :: es)

section Cut

variable {xs ys : List Token} {es fs : List Expr} {e : Expr} {t : Token}

theorem Whole.cut (h : Whole xs e) : Cut xs [e] := by
  have hcut := Cut.cons [] h (.nil [])
  rwa [List.append_nil] at hcut

theorem Cut.behind (h : Cut xs es) (ts : List Token) : Cut (ts ++ xs) es := by
  cases h with
  | nil => exact .nil _
  | cons xs hwhole hrest =>
    rw [← List.append_assoc]
    exact .cons (ts ++ xs) hwhole hrest

theorem Cut.append (hx : Cut xs es) (hy : Cut ys fs) : Cut (xs ++ ys) (es ++ fs) := by
  induction hx with
  | nil ts => exact hy.behind ts
  | cons xs hwhole _ ih =>
    rw [List.append_assoc, List.append_assoc]
    exact .cons xs hwhole ih

theorem Cut.concat (h : Cut xs es) (t : Token) : Cut (xs ++ [t]) es := by
  have hend := h.append (.nil [t])
  rwa [List.append_nil] at hend

/-- Each expression stands at tokens that follow each other. -/
theorem Cut.mem (h : Cut xs es) (he : e ∈ es) : ∃ us, us <:+: xs ∧ Whole us e := by
  induction h with
  | nil => cases he
  | @cons us rest _ _ xs hwhole _ ih =>
    obtain rfl | he := List.mem_cons.1 he
    · exact ⟨us, ⟨xs, rest, List.append_assoc _ _ _⟩, hwhole⟩
    · obtain ⟨vs, hvs, hwhole'⟩ := ih he
      exact ⟨vs, hvs.trans ⟨xs ++ us, [], by simp⟩, hwhole'⟩

end Cut

theorem Clause.cut {ts : List Token} {e : Option Expr} (h : Clause ts e) : Cut ts e.toList := by
  cases h with
  | absent => exact .nil []
  | present h => exact h.cut

mutual

theorem Statement.cut : ∀ {ts : List Token} {s : Stmt}, Statement ts s → Cut ts s.expressions
  | _, _, .ifThen _ _ _ hcond hb => (hcond.cut.behind [_, _]).append (hb.cut.behind [_])
  | _, _, .whileLoop _ _ _ hcond hb => (hcond.cut.behind [_, _]).append (hb.cut.behind [_])
  | _, _, .forLoop _ _ _ _ _ hi hc hu hb => by
    rw [List.append_assoc, List.append_assoc]
    exact (hi.cut.behind [_, _]).append ((hc.cut.behind [_]).append ((hu.cut.behind [_]).append
      (hb.cut.behind [_])))
  | _, _, .block hb => hb.cut
  | _, _, .expr _ he => he.cut.concat _

theorem Block.cut : ∀ {ts : List Token} {body : List Stmt} {span : Span}, Block ts body span →
    Cut ts (Program.expressions body)
  | _, _, _, .braces _ _ h => (h.cut.behind [_]).concat _

/-- The expressions of a program stand one behind the other. -/
theorem Statements.cut : ∀ {ts : List Token} {p : List Stmt}, Statements ts p →
    Cut ts (Program.expressions p)
  | _, _, .nil => .nil []
  | _, _, .cons h hrest => h.cut.append hrest.cut

end

/-- A statement stands at tokens that follow each other among these. -/
def Holds (ts : List Token) (s : Stmt) : Prop :=
  ∃ us, us <:+: ts ∧ Statement us s

theorem Statement.holds {ts : List Token} {s : Stmt} (h : Statement ts s) : Holds ts s :=
  ⟨ts, List.infix_refl ts, h⟩

theorem Holds.mono {ts us : List Token} {s : Stmt} (h : Holds ts s) (hts : ts <:+: us) :
    Holds us s := by
  obtain ⟨vs, hvs, hplaced⟩ := h
  exact ⟨vs, hvs.trans hts, hplaced⟩

mutual

theorem Statement.each_holds : ∀ {ts : List Token} {s : Stmt}, Statement ts s →
    ∀ a ∈ s.statements, Holds ts a
  | _, _, h@(.ifThen _ _ _ _ hb) => List.forall_mem_cons.2 ⟨h.holds, fun a ha =>
    (hb.each_holds a ha).mono ((List.suffix_cons _ _).trans (List.suffix_append _ _)).isInfix⟩
  | _, _, h@(.whileLoop _ _ _ _ hb) => List.forall_mem_cons.2 ⟨h.holds, fun a ha =>
    (hb.each_holds a ha).mono ((List.suffix_cons _ _).trans (List.suffix_append _ _)).isInfix⟩
  | _, _, h@(.forLoop _ _ _ _ _ _ _ _ hb) => List.forall_mem_cons.2 ⟨h.holds, fun a ha =>
    (hb.each_holds a ha).mono ((List.suffix_cons _ _).trans (List.suffix_append _ _)).isInfix⟩
  | _, _, h@(.block hb) => List.forall_mem_cons.2 ⟨h.holds, hb.each_holds⟩
  | _, _, h@(.expr _ _) => List.forall_mem_singleton.2 h.holds

theorem Block.each_holds : ∀ {ts : List Token} {body : List Stmt} {span : Span},
    Block ts body span → ∀ a ∈ Program.statements body, Holds ts a
  | _, _, _, .braces o c h => fun a ha => (h.each_holds a ha).mono ⟨[_], [_], rfl⟩

/-- Every statement of a program stands at tokens that follow each other. -/
theorem Statements.each_holds : ∀ {ts : List Token} {p : List Stmt}, Statements ts p →
    ∀ a ∈ Program.statements p, Holds ts a
  | _, _, .nil => nofun
  | _, _, .cons h hrest => List.forall_mem_append.2
    ⟨fun a ha => (h.each_holds a ha).mono (List.prefix_append _ _).isInfix,
      fun a ha => (hrest.each_holds a ha).mono (List.suffix_append _ _).isInfix⟩

end

end Placed

namespace TokenReader

/-- The reader gives expressions that stand at the tokens it takes. -/
def Places (inner : Nat → TokenReader Expr) : Prop :=
  ∀ least s e s', inner least s = .ok e s' → ∃ ts, Consumes s ts s' ∧ Placed.Expression ts e

section Expressions

variable {inner : Nat → TokenReader Expr} {s s' : TokenCursor} {e : Expr}

theorem operand_placed (hinner : Places inner) (h : OperandRead inner s e s') :
    ∃ ts, Consumes s ts s' ∧ Placed.Expression ts e := by
  cases h with
  | value hr => exact ⟨_, .pass hr, .value _ _⟩
  | var hr => exact ⟨_, .pass hr, .var _ _⟩
  | neg hr ha =>
    obtain ⟨ts, hts, hplaced⟩ := hinner _ _ _ _ ha
    exact ⟨_, .cons hr hts, .neg _ hplaced⟩
  | paren hr ha hclose =>
    obtain ⟨ts, hts, hplaced⟩ := hinner _ _ _ _ ha
    exact ⟨_, (Consumes.cons hr hts).trans (.pass hclose), .paren _ _ hplaced⟩

theorem expression_placed (room : Nat) : Places (expression room) := by
  induction room with
  | zero =>
    intro least s e s' h
    cases h
  | succ room ih =>
    intro least s e s' h
    obtain ⟨lhs, s₁, s₂, hlhs, hops, rfl⟩ := expression_cases h
    -- the left operand that has been built stands at the tokens taken so far
    obtain ⟨⟨ts, hts, hplaced⟩, -⟩ := operators_induct
      (I := fun e s₁ => ∃ ts, Consumes { s with depth := s.depth + 1 } ts s₁ ∧
        Placed.Expression ts e) (expression_sound room).length_le
      (fun hr _ _ hrhs ⟨xs, hxs, hl⟩ => by
        obtain ⟨ys, hys, hr'⟩ := ih _ _ _ _ hrhs
        exact ⟨_, hxs.trans (.cons hr hys), .binary _ _ hl hr'⟩)
      s₁.rest (Nat.le_refl _) (operand_placed ih hlhs) hops
    exact ⟨ts, hts.deeper, hplaced⟩

end Expressions

theorem Consumes.unique {s s' : TokenCursor} {ts us : List Token} (h : Consumes s ts s')
    (h' : Consumes s us s') : ts = us :=
  List.append_cancel_right (h.rest.symm.trans h'.rest)

section Statements

variable {room : Nat} {block : TokenReader (List Stmt × Span)} {s s' : TokenCursor}

/-- An expression that is read whole is derived from the tokens at which it stands. -/
theorem expression_whole {e : Expr} (h : expression room Precedence.lowest s = .ok e s') :
    ∃ ts, Consumes s ts s' ∧ Placed.Whole ts e := by
  obtain ⟨ts, hts, hd, -⟩ := expression_sound room _ (by decide) _ _ _ h
  obtain ⟨us, hus, hplaced⟩ := expression_placed room _ _ _ _ h
  exact ⟨ts, hts, hd, Consumes.unique hus hts ▸ hplaced⟩

/-- An expected token is taken where it stands. -/
theorem expect_placed {lexeme : Lexeme} {t : Token} (h : expect lexeme s = .ok t s') :
    Consumes s [⟨lexeme, t.span⟩] s' := by
  obtain ⟨rfl, rfl, r, hr⟩ := expect_eq_ok.1 h
  exact .pass hr

theorem clause_placed {terminator : Lexeme} {e : Option Expr}
    (h : clause room terminator s = .ok e s') : ∃ ts, Consumes s ts s' ∧ Placed.Clause ts e := by
  obtain ⟨rfl, rfl⟩ | ⟨a, rfl, ha⟩ := clause_cases h
  · exact ⟨[], .refl _, .absent⟩
  · obtain ⟨ts, hts, hwhole⟩ := expression_whole ha
    exact ⟨ts, hts, .present hwhole⟩

theorem condition_placed {e : Expr} (h : condition room s = .ok e s') :
    ∃ ts o c, Consumes s (⟨.leftParen, o⟩ :: ts ++ [⟨.rightParen, c⟩]) s' ∧ Placed.Whole ts e := by
  obtain ⟨o, s₁, s₂, c, ho, ha, hc⟩ := condition_cases h
  obtain ⟨ts, hts, hwhole⟩ := expression_whole ha
  exact ⟨ts, _, _, ((expect_placed ho).trans hts).trans (expect_placed hc), hwhole⟩

/-- The reader gives blocks that stand at the tokens it takes. -/
def PlacesBlock (block : TokenReader (List Stmt × Span)) : Prop :=
  ∀ s body span s', block s = .ok (body, span) s' →
    ∃ ts, Consumes s ts s' ∧ Placed.Block ts body span

theorem statement_placed (hblock : PlacesBlock block) {stmt : Stmt}
    (h : statement room block s = .ok stmt s') :
    ∃ ts, Consumes s ts s' ∧ Placed.Statement ts stmt := by
  cases statement_cases h with
  | ifThen hr he hb =>
    obtain ⟨ts, o, c, hts, hwhole⟩ := condition_placed he
    obtain ⟨bs, hbs, hbody⟩ := hblock _ _ _ _ hb
    refine ⟨_, (Consumes.cons hr hts).trans hbs, ?_⟩
    simpa using Placed.Statement.ifThen _ o c hwhole hbody
  | whileLoop hr he hb =>
    obtain ⟨ts, o, c, hts, hwhole⟩ := condition_placed he
    obtain ⟨bs, hbs, hbody⟩ := hblock _ _ _ _ hb
    refine ⟨_, (Consumes.cons hr hts).trans hbs, ?_⟩
    simpa using Placed.Statement.whileLoop _ o c hwhole hbody
  | forLoop hr ho hi hc₁ hcond hc₂ hu hc₃ hb =>
    obtain ⟨xs, hxs, hx⟩ := clause_placed hi
    obtain ⟨ys, hys, hy⟩ := clause_placed hcond
    obtain ⟨zs, hzs, hz⟩ := clause_placed hu
    obtain ⟨bs, hbs, hbody⟩ := hblock _ _ _ _ hb
    refine ⟨_, .cons hr <| (expect_placed ho).trans <| hxs.trans <| (expect_placed hc₁).trans <|
      hys.trans <| (expect_placed hc₂).trans <| hzs.trans <| (expect_placed hc₃).trans hbs, ?_⟩
    simpa using Placed.Statement.forLoop _ _ _ _ _ hx hy hz hbody
  | block hb =>
    obtain ⟨bs, hbs, hbody⟩ := hblock _ _ _ _ hb
    exact ⟨bs, hbs, .block hbody⟩
  | expr hr he hc =>
    obtain ⟨ts, hts, hwhole⟩ := expression_whole he
    obtain ⟨u, us, rfl⟩ := List.exists_cons_of_length_pos
      (by simpa using hwhole.derives.length_pos)
    obtain ⟨rfl, -⟩ := List.cons.inj (hr.symm.trans hts.rest)
    exact ⟨_, hts.trans (expect_placed hc), .expr _ hwhole⟩

/-- A loop over statements that stand at the tokens they take gives such statements, and goes on up
to what ends it. -/
theorem LoopsBy.placed {finish : Option Token → Option (List Stmt → TokenReader (List Stmt))}
    {stmt : TokenReader Stmt} {loop : List Token → List Stmt → TokenReader (List Stmt)}
    (hloop : LoopsBy finish stmt loop)
    (hlast : ∀ {t last done s body s'}, finish t = some last → last done s = .ok body s' →
      body = done.reverse ∧ s' = s)
    (hstmt : ∀ s a s', stmt s = .ok a s' → ∃ ts, Consumes s ts s' ∧ Placed.Statement ts a) :
    ∀ (count : List Token) {s : TokenCursor} {done body : List Stmt} {s' : TokenCursor},
      s.rest.length ≤ count.length → loop count done s = .ok body s' →
      ∃ ts body', body = done.reverse ++ body' ∧ Consumes s ts s' ∧
        Placed.Statements ts body' ∧ finish s'.rest.head? ≠ none := by
  have stop : ∀ (count : List Token) {s s' : TokenCursor} {done body : List Stmt}
      {last : List Stmt → TokenReader (List Stmt)}, finish s.rest.head? = some last →
      loop count done s = .ok body s' →
      ∃ ts body', body = done.reverse ++ body' ∧ Consumes s ts s' ∧
        Placed.Statements ts body' ∧ finish s'.rest.head? ≠ none := by
    intro count s s' done body last hnext h
    obtain ⟨rfl, rfl⟩ := hlast hnext (hloop.ends count done hnext ▸ h)
    exact ⟨[], [], (List.append_nil _).symm, .refl _, .nil, by simp [hnext]⟩
  intro count
  induction count with
  | nil =>
    intro s done body s' hlen h
    have hr : s.rest = [] := List.eq_nil_of_length_eq_zero (Nat.le_zero.1 hlen)
    cases hnext : finish s.rest.head? with
    | some last => exact stop [] hnext h
    | none => exact absurd (by rwa [hr] at hnext) hloop.needs
  | cons k count ih =>
    intro s done body s' hlen h
    cases hnext : finish s.rest.head? with
    | some last => exact stop (k :: count) hnext h
    | none =>
      rw [hloop.goes k count done hnext] at h
      obtain ⟨a, s₁, ha, hrest⟩ := bind_eq_ok.1 h
      obtain ⟨xs, hxs, hplaced⟩ := hstmt _ _ _ ha
      have hpos := hplaced.derives.length_pos
      have hlen₁ : s₁.rest.length ≤ count.length := by
        have := congrArg List.length hxs.rest
        simp only [List.length_append, List.length_map, List.length_cons] at this hpos hlen
        omega
      obtain ⟨ys, body', rfl, hys, hbody, hend⟩ := ih hlen₁ hrest
      exact ⟨xs ++ ys, a :: body', by simp, hxs.trans hys, .cons hplaced hbody, hend⟩

end Statements

theorem block_placed (room : Nat) : PlacesBlock (block room) := by
  induction room with
  | zero =>
    intro s body span s' h
    obtain ⟨t, s₁, -, h⟩ := bind_eq_ok.1 h
    cases h
  | succ room ih =>
    intro s body span s' h
    obtain ⟨o, s₁, s₂, c, r, ho, hbody, hr, rfl, rfl⟩ := block_cases h
    obtain ⟨ts, _, rfl, hts, hplaced, hend⟩ := (statements_loopsBy _).placed
      (s := { s₁ with depth := s₁.depth + 1 }) finishBlock_last
      (fun _ _ _ => statement_placed ih) _ (Nat.le_refl _) hbody
    obtain ⟨lexeme, close⟩ := c
    obtain rfl : lexeme = .rightBrace := by
      rw [hr, List.head?_cons, finishBlock] at hend
      exact Decidable.of_not_not fun hne => hend (if_neg hne)
    have hpass : ({ s₂ with depth := s₂.depth - 1 } : TokenCursor).rest =
      ⟨.rightBrace, close⟩ :: r := hr
    exact ⟨_, ((expect_placed ho).trans hts.deeper).trans (.pass hpass), .braces _ _ hplaced⟩

end TokenReader

/-- A program that is read stands at the tokens. -/
theorem ofTokens_placed {ts : List Token} {limit : Int} {p : Program}
    (h : Program.ofTokens ts limit = .ok p) : Placed.Statements ts p := by
  obtain ⟨s, hread⟩ := Program.ofTokens_eq_ok.1 h
  obtain ⟨us, _, rfl, hus, hplaced, hend⟩ := (TokenReader.statementsToEnd_loopsBy _).placed
    TokenReader.finishProgram_last
    (fun _ _ _ => TokenReader.statement_placed (TokenReader.block_placed _)) ts (Nat.le_refl _)
    hread
  have hrest : s.rest = [] := by
    cases hr : s.rest with
    | nil => rfl
    | cons t r => exact absurd (by rw [hr]; rfl) hend
  have hall : ts = us := by
    have := hus.rest
    rwa [hrest, List.append_nil] at this
  exact hall ▸ hplaced

/-- An expression that is read stands at the tokens. -/
theorem Expr.ofTokens_placed {ts : List Token} {limit : Int} {e : Expr}
    (h : Expr.ofTokens ts limit = .ok e) : Placed.Whole ts e := by
  unfold Expr.ofTokens readTokens at h
  cases hread : TokenReader.wholeExpression (.start ts limit) with
  | error e' s =>
    rw [hread] at h
    cases h
  | ok a s =>
    rw [hread] at h
    cases h
    obtain ⟨_, _, hget, hrest⟩ := bind_eq_ok.1 hread
    cases hget
    obtain ⟨a, s₁, ha, hend⟩ := bind_eq_ok.1 hrest
    obtain ⟨us, hus, hwhole⟩ := TokenReader.expression_whole ha
    rw [bind_of_ok (TokenReader.peek_eq s₁)] at hend
    have hts : ts = us ++ s₁.rest := hus.rest
    cases hr : s₁.rest with
    | cons t r =>
      rw [hr] at hend
      cases hend
    | nil =>
      rw [hr] at hend hts
      cases hend
      rw [List.append_nil] at hts
      exact hts ▸ hwhole

end Imp32
