import Imp32.Proofs.Grammar.Sound
import Imp32.Proofs.SameTree

/-!
# What is written is read

How lexemes that are put together are read as what they are put together from, and how many levels
of nesting the parser enters for it.

`Climbs levels c xs e` is what carries an expression of the layer `c`. It is read by the operand and
some of the operators behind it, and the operator loop goes on with the expression as its left
operand, at every place that asks for no more than the layer gives, in front of everything that
leaves the layer's expressions whole, and wherever `levels` levels may be entered. `Reads` says of
any reader that it reads lexemes as a value up to spans; it composes along the reader
(`Reads.bind`), up to whole programs (`ReadsEach.program`).
-/

namespace Imp32

open Grammar

/-- No operator has just the precedence of the unary minus. -/
theorem Stops.unary {rest : List Token} (h : Stops (Category.un.rank + 1) rest) :
    Stops Precedence.unary rest := by
  intro op span r hr
  have := h op span r hr
  revert this
  cases op <;> decide

theorem stops_op {op : BinaryOp} {span : Span} {r : List Token} {least : Nat}
    (h : op.precedence < least) : Stops least (⟨.op op, span⟩ :: r) := by
  intro op' span' r' hr
  cases hr
  exact h

/-- An operator accepts left operands that differ in their spans alike. -/
theorem TokenReader.accepts_congr {op : BinaryOp} {a b : Expr} (h : a.sameTree b = true) :
    accepts op a = accepts op b := by
  cases op <;> cases a <;> cases b <;> simp_all [accepts, Expr.sameTree]

namespace TokenReader

/-! ## The operator loop -/

section Operators

variable {inner : Nat → TokenReader Expr} {least : Nat} {s s' : TokenCursor} {lhs rhs : Expr}

theorem operators_of_stops (count : List Token) (h : Stops least s.rest) :
    operators inner least count lhs s = .ok lhs s := by
  cases count with
  | nil => rfl
  | cons k count =>
    unfold operators
    rw [bind_of_ok (peek_eq s)]
    cases hr : s.rest with
    | nil => rfl
    | cons t r =>
      obtain ⟨lexeme, span⟩ := t
      cases lexeme with
      | op op =>
        dsimp only [List.head?_cons]
        rw [if_pos (h op span r hr)]
        rfl
      | _ => rfl

/-- The loop at an operator that binds tightly enough: what it accepts is read on. -/
theorem operators_of_op {op : BinaryOp} {span : Span} {r : List Token} (k : Token)
    (count : List Token) (hr : s.rest = ⟨.op op, span⟩ :: r) (hprec : least ≤ op.precedence) :
    operators inner least (k :: count) lhs s =
      if accepts op lhs then
        (inner op.rightOperand >>= fun rhs =>
          operators inner least count (.binary lhs op rhs (lhs.span.join rhs.span))) s.pass
      else .error (.invalidAssignmentTarget ⟨.op op, span⟩) s.pass := by
  conv =>
    lhs
    unfold operators
  rw [bind_of_ok (peek_eq s), hr]
  dsimp only [List.head?_cons]
  rw [if_neg (Nat.not_lt.2 hprec), bind_of_ok (pass_eq s)]
  cases accepts op lhs <;> rfl

/-- The loop takes an operator that it accepts, with its right operand. -/
theorem operators_cons {op : BinaryOp} {span : Span} {k : Token} {r count : List Token}
    (hr : s.rest = ⟨.op op, span⟩ :: r) (hprec : least ≤ op.precedence)
    (haccepts : accepts op lhs = true) (hrhs : inner op.rightOperand s.pass = .ok rhs s') :
    operators inner least (k :: count) lhs s =
      operators inner least count (.binary lhs op rhs (lhs.span.join rhs.span)) s' := by
  rw [operators_of_op k count hr hprec, if_pos haccepts]
  exact bind_of_ok hrhs

/-- The loop does not depend on the count, as long as there are no more tokens. -/
theorem operators_count (hinner : Sound inner) : ∀ (count count' : List Token)
    {s : TokenCursor} {lhs : Expr}, s.rest.length ≤ count.length →
      s.rest.length ≤ count'.length →
      operators inner least count lhs s = operators inner least count' lhs s := by
  intro count
  induction count with
  | nil =>
    intro count' s lhs hlen _
    have hr : s.rest = [] := List.eq_nil_of_length_eq_zero (Nat.le_zero.1 hlen)
    rw [operators_of_stops [] (hr ▸ stops_nil least), operators_of_stops _ (hr ▸ stops_nil least)]
  | cons k count ih =>
    intro count' s lhs hlen hlen'
    by_cases hstop : Stops least s.rest
    · rw [operators_of_stops _ hstop, operators_of_stops _ hstop]
    · obtain ⟨op, span, r, hr, hprec⟩ := exists_op_of_not_stops hstop
      cases count' with
      | nil => simp [hr] at hlen'
      | cons k' count' =>
        rw [operators_of_op k count hr hprec, operators_of_op k' count' hr hprec]
        split
        · cases hrhs : inner op.rightOperand s.pass with
          | error e s' => rw [bind_of_error hrhs, bind_of_error hrhs]
          | ok rhs s' =>
            rw [bind_of_ok hrhs, bind_of_ok hrhs]
            obtain ⟨ts, hts, -⟩ := hinner _ (by cases op <;> decide) _ _ _ hrhs
            have := hts.length_le
            simp only [TokenCursor.rest_pass, hr, List.length_cons, List.tail_cons] at this hlen hlen'
            exact ih _ (by omega) (by omega)
        · rfl

end Operators

/-! ## Expressions -/

/-- An operand and the operators behind it. -/
def climb (inner : Nat → TokenReader Expr) (least : Nat) : TokenReader Expr := do
  let lhs ← operand inner
  operators inner least (← unread) lhs

/-- The lexemes are read as the expression under this many levels, and the operator loop goes on
behind it. -/
def Climbs (levels : Nat) (c : Category) (xs : List Lexeme) (e : Expr) : Prop :=
  ∀ (room least : Nat) (s : TokenCursor) (ts rest : List Token),
    ts.map Token.lexeme = xs → s.rest = ts ++ rest → least ≤ c.most → Stops (c.rank + 1) rest →
    levels ≤ room + 1 →
    ∃ e' s', e'.sameTree e = true ∧ Consumes s ts s' ∧ s'.rest = rest ∧
      climb (expression room) least s = operators (expression room) least rest e' s'

section Climbing

variable {levels levels' : Nat} {c c' : Category} {xs ys : List Lexeme} {a b e : Expr}

theorem Climbs.mono (h : Climbs levels c xs e) (hlevels : levels ≤ levels') :
    Climbs levels' c xs e :=
  fun _ _ _ _ _ hxs hs hleast hstop hroom =>
    h _ _ _ _ _ hxs hs hleast hstop (Nat.le_trans hlevels hroom)

theorem Climbs.loosen (h : Climbs levels c xs e) (hrank : c'.rank ≤ c.rank) :
    Climbs levels c' xs e := by
  intro room least s ts rest hxs hs hleast hstop hroom
  have hmost : c'.most ≤ c.most := by
    revert hrank
    cases c <;> cases c' <;> decide
  exact h _ _ _ _ _ hxs hs (Nat.le_trans hleast hmost) (hstop.mono (Nat.succ_le_succ hrank)) hroom

/-- What is climbed is read as a whole where the loop stops behind it. -/
theorem Climbs.expression (h : Climbs levels c xs e) (hpos : 0 < levels) {room : Nat}
    (hroom : levels ≤ room) (least : Nat) (s : TokenCursor) {ts rest : List Token}
    (hxs : ts.map Token.lexeme = xs) (hs : s.rest = ts ++ rest) (hleast : least ≤ c.most)
    (hfit : Stops (c.rank + 1) rest) (hstop : Stops least rest) :
    ∃ e' s', e'.sameTree e = true ∧ Consumes s ts s' ∧ s'.rest = rest ∧
      TokenReader.expression room least s = .ok e' s' := by
  cases room with
  | zero => exact absurd hroom (Nat.not_le.2 hpos)
  | succ room =>
    obtain ⟨e', s', he, hc, hrest, hclimb⟩ :=
      h room least { s with depth := s.depth + 1 } ts rest hxs hs hleast hfit hroom
    rw [operators_of_stops rest (hrest ▸ hstop)] at hclimb
    exact ⟨e', _, he, hc.deeper, hrest, deeper_eq_ok.2 ⟨s', hclimb, rfl⟩⟩

/-- Reading an operand that is a single token. -/
theorem climbs_token {lexeme : Lexeme} {e : Span → Expr} (span : Span)
    (he : ∀ span', (e span').sameTree (e span) = true)
    (hread : ∀ inner s t r, s.rest = t :: r → t.lexeme = lexeme →
      operand inner s = .ok (e t.span) s.pass) : Climbs 1 .atom [lexeme] (e span) := by
  intro room least s ts rest hxs hs _ _ _
  obtain ⟨t, rfl, ht⟩ := List.map_eq_singleton_iff.1 hxs
  refine ⟨e t.span, s.pass, he t.span, .pass hs, by simp [hs], ?_⟩
  unfold climb
  rw [bind_of_ok (hread _ s t rest hs ht), bind_of_ok (unread_eq _), TokenCursor.rest_pass, hs]
  rfl

theorem climbs_num (n : Int) (span : Span) : Climbs 1 .atom [.num n] (.value n span) :=
  climbs_token (e := .value n) span (by simp [Expr.sameTree]) fun inner s t r hr ht => by
    obtain ⟨lexeme, tspan⟩ := t
    cases ht
    unfold operand
    rw [bind_of_ok (current_of_rest hr)]
    rfl

theorem climbs_ident (name : String) (span : Span) :
    Climbs 1 .atom [.ident name] (.var name span) :=
  climbs_token (e := .var name) span (by simp [Expr.sameTree]) fun inner s t r hr ht => by
    obtain ⟨lexeme, tspan⟩ := t
    cases ht
    unfold operand
    rw [bind_of_ok (current_of_rest hr)]
    rfl

/-- A parenthesis enters a level. -/
theorem Climbs.paren (h : Climbs levels .expr xs e) (hpos : 0 < levels) :
    Climbs (levels + 1) .atom (.leftParen :: xs ++ [.rightParen]) e := by
  intro room least s ts rest hxs hs _ _ hroom
  obtain ⟨us, close, rfl, hus, hclose⟩ := List.map_eq_append_iff.1 hxs
  obtain ⟨o, us, rfl, ho, rfl⟩ := List.map_eq_cons_iff.1 hus
  obtain ⟨k, rfl, hk⟩ := List.map_eq_singleton_iff.1 hclose
  obtain ⟨oplex, ospan⟩ := o
  obtain ⟨klex, kspan⟩ := k
  cases ho
  cases hk
  have hpass : s.pass.rest = us ++ ⟨.rightParen, kspan⟩ :: rest := by simp [hs]
  have hstops : ∀ least, Stops least (⟨.rightParen, kspan⟩ :: rest) := fun _ =>
    stops_of_lexeme (by simp)
  obtain ⟨e', s', he, hc, hrest, hread⟩ := h.expression hpos (Nat.le_of_succ_le_succ hroom)
    Precedence.lowest s.pass rfl hpass (by decide) (hstops _) (hstops _)
  have hsrest : s.rest = ⟨.leftParen, ospan⟩ :: (us ++ ⟨.rightParen, kspan⟩ :: rest) := by simp [hs]
  refine ⟨e', s'.pass, he, (Consumes.cons hsrest hc).trans (.pass hrest), by simp [hrest], ?_⟩
  have hoperand : operand (TokenReader.expression room) s = .ok e' s'.pass := by
    unfold operand
    rw [bind_of_ok (current_of_rest hsrest)]
    dsimp only
    rw [bind_of_ok (pass_eq s), bind_of_ok hread, bind_of_ok (peek_eq s'), hrest]
    rfl
  unfold climb
  rw [bind_of_ok hoperand, bind_of_ok (unread_eq _), TokenCursor.rest_pass, hrest]
  rfl

/-- A negation enters a level. -/
theorem Climbs.neg (h : Climbs levels .un xs a) (hpos : 0 < levels) (span : Span) :
    Climbs (levels + 1) .un (.op .sub :: xs) (.neg a span) := by
  intro room least s ts rest hxs hs _ hstop hroom
  obtain ⟨o, us, rfl, ho, rfl⟩ := List.map_eq_cons_iff.1 hxs
  obtain ⟨oplex, ospan⟩ := o
  cases ho
  have hpass : s.pass.rest = us ++ rest := by simp [hs]
  obtain ⟨a', s', ha, hc, hrest, hread⟩ := h.expression hpos (Nat.le_of_succ_le_succ hroom)
    Precedence.unary s.pass rfl hpass (by decide) hstop hstop.unary
  refine ⟨.neg a' (ospan.join a'.span), s', by simpa [Expr.sameTree] using ha,
    .cons hs hc, hrest, ?_⟩
  have hoperand : operand (TokenReader.expression room) s =
      .ok (.neg a' (ospan.join a'.span)) s' := by
    unfold operand
    rw [bind_of_ok (current_of_rest hs)]
    dsimp only
    rw [bind_of_ok (pass_eq s), bind_of_ok hread]
    rfl
  unfold climb
  rw [bind_of_ok hoperand, bind_of_ok (unread_eq _), hrest]

/-- An operator between what is climbed to its left and what is read to its right, one level
deeper. The layers are those of the left operand, the right operand and the result. -/
theorem Climbs.binary {c₀ : Category} {op : BinaryOp} (span : Span) (ha : Climbs levels c xs a)
    (hb : Climbs levels' c' ys b) (hpos : 0 < levels') (hvar : accepts op a = true)
    (hleft : op.precedence ≤ c.rank) (hmost : c₀.most ≤ c.most) (hprec : c₀.most ≤ op.precedence)
    (hright : op.rightOperand ≤ c'.most) (hrank : c₀.rank ≤ c'.rank)
    (hstops : c₀.rank + 1 ≤ op.rightOperand) :
    Climbs (max levels (levels' + 1)) c₀ (xs ++ .op op :: ys) (.binary a op b span) := by
  intro room least s ts rest hxs hs hleast hfit hroom
  obtain ⟨hlevels, hlevels'⟩ := Nat.max_le.1 hroom
  obtain ⟨us, vs, rfl, rfl, hvs⟩ := List.map_eq_append_iff.1 hxs
  obtain ⟨o, vs, rfl, ho, rfl⟩ := List.map_eq_cons_iff.1 hvs
  obtain ⟨oplex, ospan⟩ := o
  cases ho
  obtain ⟨a', s₁, hea, hca, hra, hclimb⟩ := ha room least s us
    (⟨.op op, ospan⟩ :: vs ++ rest) rfl (by simp [hs]) (Nat.le_trans hleast hmost)
    (stops_op (Nat.lt_succ_of_le hleft)) hlevels
  obtain ⟨b', s₂, heb, hcb, hrb, hread⟩ := hb.expression hpos (Nat.le_of_succ_le_succ hlevels')
    op.rightOperand s₁.pass rfl (by simp [hra]) hright (hfit.mono (Nat.succ_le_succ hrank))
    (hfit.mono hstops)
  refine ⟨.binary a' op b' (a'.span.join b'.span), s₂, by simp [Expr.sameTree, hea, heb],
    hca.trans (.cons hra hcb), hrb, ?_⟩
  rw [hclimb]
  rw [List.cons_append, operators_cons hra (Nat.le_trans hleast hprec)
    (by rw [accepts_congr hea, hvar]) hread]
  exact operators_count (expression_sound room) _ _ (by simp [hrb]) (by simp [hrb])

end Climbing

/-! ## Readers one after the other -/

/-- In front of every rest that fits, the reader takes tokens with these lexemes and gives a result
that is right. -/
def Reads {β : Type} (read : TokenReader β) (right : β → Prop) (fits : List Token → Prop)
    (xs : List Lexeme) : Prop :=
  ∀ (s : TokenCursor) (ts rest : List Token),
    ts.map Token.lexeme = xs → s.rest = ts ++ rest → fits rest →
    ∃ b s', right b ∧ Consumes s ts s' ∧ read s = .ok b s'

def AnyRest (_ : List Token) : Prop := True

def Begins (lexeme : Lexeme) (rest : List Token) : Prop :=
  ∃ t r, rest = t :: r ∧ t.lexeme = lexeme

theorem Begins.stops {lexeme : Lexeme} {rest : List Token} (h : Begins lexeme rest)
    (hlexeme : ∀ op, lexeme ≠ .op op) (least : Nat) : Stops least rest := by
  obtain ⟨t, r, rfl, ht⟩ := h
  exact stops_of_lexeme (by rwa [ht])

theorem begins_append {lexeme : Lexeme} {xs : List Lexeme} {us : List Token} (rest : List Token)
    (h : us.map Token.lexeme = lexeme :: xs) : Begins lexeme (us ++ rest) := by
  obtain ⟨t, r, rfl, ht, -⟩ := List.map_eq_cons_iff.1 h
  exact ⟨t, r ++ rest, rfl, ht⟩

section Sequences

variable {β γ : Type} {read : TokenReader β} {right : β → Prop} {right' : γ → Prop}
  {fits fits' : List Token → Prop} {xs ys : List Lexeme}

theorem Reads.done {b : β} (h : right b) : Reads (pure b) right fits [] := by
  intro s ts rest hts _ _
  obtain rfl := List.map_eq_nil_iff.1 hts
  exact ⟨b, s, h, .refl s, rfl⟩

/-- One reader behind the other takes the lexemes of both. -/
theorem Reads.bind {f : β → TokenReader γ} (h : Reads read right fits xs)
    (hf : ∀ b, right b → Reads (f b) right' fits' ys)
    (hfits : ∀ us rest, us.map Token.lexeme = ys → fits' rest → fits (us ++ rest)) :
    Reads (read >>= f) right' fits' (xs ++ ys) := by
  intro s ts rest hts hs hrest
  obtain ⟨us, vs, rfl, hus, hvs⟩ := List.map_eq_append_iff.1 hts
  rw [List.append_assoc] at hs
  obtain ⟨b, s₁, hb, hc, hread⟩ := h s us (vs ++ rest) hus hs (hfits vs rest hvs hrest)
  obtain ⟨c, s₂, hright, hc', hread'⟩ := hf b hb s₁ vs rest hvs (hc.rest_eq hs) hrest
  exact ⟨c, s₂, hright, hc.trans hc', (bind_of_ok hread).trans hread'⟩

theorem Reads.map {f : β → γ} (h : Reads read right fits xs) (hf : ∀ b, right b → right' (f b)) :
    Reads (f <$> read) right' fits xs := by
  intro s ts rest hts hs hrest
  obtain ⟨b, s', hb, hc, hread⟩ := h s ts rest hts hs hrest
  refine ⟨f b, s', hf b hb, hc, ?_⟩
  rw [← bind_pure_comp, bind_of_ok hread]
  rfl

/-- An expected token, with what is read behind it. -/
theorem Reads.expect {lexeme : Lexeme} {f : Token → TokenReader γ}
    (hf : ∀ t, Reads (f t) right' fits' ys) :
    Reads (expect lexeme >>= f) right' fits' (lexeme :: ys) := by
  have h : Reads (TokenReader.expect lexeme) (fun _ => True) AnyRest [lexeme] := by
    intro s ts rest hts hs _
    obtain ⟨t, rfl, ht⟩ := List.map_eq_singleton_iff.1 hts
    exact ⟨t, s.pass, trivial, .pass hs, expect_of_rest hs ht⟩
  exact h.bind (fun t _ => hf t) fun _ _ _ _ => trivial

/-- A reader that goes by its first token. -/
theorem Reads.first {lexeme : Lexeme} {f : Token → TokenReader β}
    (hread : ∀ (s : TokenCursor) t r, s.rest = t :: r → t.lexeme = lexeme → read s = f t s.pass)
    (hf : ∀ t, Reads (f t) right fits xs) : Reads read right fits (lexeme :: xs) := by
  intro s ts rest hts hs hrest
  obtain ⟨t, us, rfl, ht, hus⟩ := List.map_eq_cons_iff.1 hts
  obtain ⟨b, s', hb, hc, hread'⟩ := hf t s.pass us rest hus (by simp [hs]) hrest
  exact ⟨b, s', hb, .cons hs hc, (hread s t _ hs ht).trans hread'⟩

end Sequences

/-! ## Statements -/

section Statements

variable {room levels : Nat} {block : TokenReader (List Stmt × Span)} {xs ys zs bs : List Lexeme}
  {e cond : Expr} {body : List Stmt}

/-- The lexemes are read as the expression wherever no operator follows. -/
abbrev ReadsExpr (room : Nat) (xs : List Lexeme) (e : Expr) : Prop :=
  Reads (expression room Precedence.lowest) (fun e' => e'.sameTree e = true)
    (Stops Precedence.lowest) xs

abbrev ReadsBlock (block : TokenReader (List Stmt × Span)) (bs : List Lexeme) (body : List Stmt) :
    Prop :=
  Reads block (fun b => sameTrees b.1 body = true) AnyRest bs

abbrev ReadsStmt (statement : TokenReader Stmt) (xs : List Lexeme) (stmt : Stmt) : Prop :=
  Reads statement (fun stmt' => stmt'.sameTree stmt = true) AnyRest xs

theorem Climbs.reads (h : Climbs levels .expr xs e) (hpos : 0 < levels) (hroom : levels ≤ room) :
    ReadsExpr room xs e := by
  intro s ts rest hts hs hstop
  obtain ⟨e', s', he, hc, -, hread⟩ := h.expression hpos hroom Precedence.lowest s hts hs
    (by decide) (hstop.mono (by decide)) hstop
  exact ⟨e', s', he, hc, hread⟩

/-- An absent clause stands in front of its terminator, and a present one does not begin with
it. -/
theorem Reads.clause {terminator : Lexeme} {e : Option Expr}
    (hterminator : terminator = .semicolon ∨ terminator = .rightParen) (hd : Clause xs e)
    (h : ∀ a ∈ e, ReadsExpr room xs a) :
    Reads (clause room terminator) (fun e' => sameClause e' e = true) (Begins terminator) xs := by
  intro s ts rest hts hs hrest
  cases hd with
  | absent =>
    obtain rfl := List.map_eq_nil_iff.1 hts
    obtain ⟨t, r, rfl, ht⟩ := hrest
    refine ⟨none, s, rfl, .refl s, ?_⟩
    unfold TokenReader.clause
    rw [bind_of_ok (peek_eq s), hs, List.nil_append, List.head?_cons]
    dsimp only
    rw [if_pos ht]
    rfl
  | @present _ a hd =>
    have hread : Reads (some <$> expression room Precedence.lowest)
        (fun e' => sameClause e' (some a) = true) (Stops Precedence.lowest) xs :=
      (h a rfl).map fun _ he => he
    have hstop := hrest.stops (by rcases hterminator with rfl | rfl <;> simp) Precedence.lowest
    obtain ⟨e', s', he, hc, hread⟩ := hread s ts rest hts hs hstop
    refine ⟨e', s', he, hc, ?_⟩
    obtain ⟨l, r, hl, hfirst⟩ := hd.exists_cons
    obtain ⟨u, us, rfl, hu, -⟩ := List.map_eq_cons_iff.1 (hts.trans hl)
    unfold TokenReader.clause
    rw [bind_of_ok (peek_eq s), hs, List.cons_append, List.head?_cons]
    dsimp only
    have hne : u.lexeme ≠ terminator := by
      rw [hu]
      rintro rfl
      rcases hterminator with rfl | rfl <;> simp [Lexeme.spelling?] at hfirst
    rw [if_neg hne]
    exact hread

theorem Reads.condition (h : ReadsExpr room xs e) :
    Reads (condition room) (fun e' => e'.sameTree e = true) AnyRest
      (.leftParen :: xs ++ [.rightParen]) :=
  .expect fun _ => h.bind (fun _ he => .expect fun _ => .done he) fun _ rest hus _ =>
    (begins_append rest hus).stops (by simp) _

/-- A block, of which a statement is made. -/
theorem Reads.make_of_block (make : List Stmt → Span → Stmt) {stmt : Stmt}
    (h : ReadsBlock block bs body)
    (hmake : ∀ b span, sameTrees b body = true → (make b span).sameTree stmt = true) :
    ReadsStmt (do let (b, span) ← block; return make b span) bs stmt := by
  have hread : ReadsStmt (do let (b, span) ← block; return make b span) (bs ++ []) stmt :=
    h.bind (fun x hx => .done (hmake x.1 x.2 hx)) fun _ _ _ _ => trivial
  rwa [List.append_nil] at hread

/-- A keyword, a condition and a block. -/
theorem Reads.conditional (make : Expr → List Stmt → Span → Stmt) (word : Lexeme) (span : Span)
    (hmake : ∀ e e' b b' sp sp', e.sameTree e' = true → sameTrees b b' = true →
      (make e b sp).sameTree (make e' b' sp') = true)
    (hread : ∀ (s : TokenCursor) t r, s.rest = t :: r → t.lexeme = word →
      statement room block s = (do
        let cond ← TokenReader.condition room
        let (body, span) ← block
        return make cond body (t.span.join span)) s.pass)
    (hcond : ReadsExpr room xs cond) (hblock : ReadsBlock block bs body) :
    ReadsStmt (statement room block) (word :: .leftParen :: xs ++ .rightParen :: bs)
      (make cond body span) := by
  have h : ReadsStmt (statement room block) (word :: ((.leftParen :: xs ++ [.rightParen]) ++ bs))
      (make cond body span) := by
    refine .first hread fun t => (Reads.condition hcond).bind (fun e he => ?_)
      fun _ _ _ _ => trivial
    exact Reads.make_of_block (fun b sp => make e b (t.span.join sp)) hblock fun _ _ hb =>
      hmake _ _ _ _ _ _ he hb
  simpa using h

theorem Reads.ifThen (span : Span) (hcond : ReadsExpr room xs cond)
    (hblock : ReadsBlock block bs body) :
    ReadsStmt (statement room block) (.ifWord :: .leftParen :: xs ++ .rightParen :: bs)
      (.ifThen cond body span) := by
  refine .conditional .ifThen .ifWord span ?_ ?_ hcond hblock
  · intro e e' b b' sp sp' he hb
    simp [Stmt.sameTree, he, hb]
  · rintro s ⟨lexeme, tspan⟩ r hr ⟨⟩
    unfold statement
    rw [bind_of_ok (current_of_rest hr)]
    rfl

theorem Reads.whileLoop (span : Span) (hcond : ReadsExpr room xs cond)
    (hblock : ReadsBlock block bs body) :
    ReadsStmt (statement room block) (.whileWord :: .leftParen :: xs ++ .rightParen :: bs)
      (.whileLoop cond body span) := by
  refine .conditional .whileLoop .whileWord span ?_ ?_ hcond hblock
  · intro e e' b b' sp sp' he hb
    simp [Stmt.sameTree, he, hb]
  · rintro s ⟨lexeme, tspan⟩ r hr ⟨⟩
    unfold statement
    rw [bind_of_ok (current_of_rest hr)]
    rfl

theorem Reads.forLoop {init cond update : Option Expr} (span : Span) (hi : Clause xs init)
    (hinit : ∀ a ∈ init, ReadsExpr room xs a) (hc : Clause ys cond)
    (hcond : ∀ a ∈ cond, ReadsExpr room ys a) (hu : Clause zs update)
    (hupdate : ∀ a ∈ update, ReadsExpr room zs a) (hblock : ReadsBlock block bs body) :
    ReadsStmt (statement room block) (.forWord :: .leftParen :: xs ++ .semicolon :: ys ++
      .semicolon :: zs ++ .rightParen :: bs) (.forLoop init cond update body span) := by
  have before : ∀ (l : Lexeme) (ls : List Lexeme) (us rest : List Token),
      us.map Token.lexeme = l :: ls → AnyRest rest → Begins l (us ++ rest) :=
    fun _ _ _ rest hus _ => begins_append rest hus
  have h : ReadsStmt (statement room block) (.forWord :: .leftParen :: (xs ++ .semicolon ::
      (ys ++ .semicolon :: (zs ++ .rightParen :: bs)))) (.forLoop init cond update body span) := by
    refine .first (fun s t r hr ht => ?_) fun t => .expect fun _ =>
      (Reads.clause (.inl rfl) hi hinit).bind (fun init' hinit' => .expect fun _ =>
        (Reads.clause (.inl rfl) hc hcond).bind (fun cond' hcond' => .expect fun _ =>
          (Reads.clause (.inr rfl) hu hupdate).bind (fun update' hupdate' => .expect fun _ =>
            Reads.make_of_block
              (fun b sp => .forLoop init' cond' update' b (t.span.join sp)) hblock fun _ _ hb => ?_)
            (before _ _)) (before _ _)) (before _ _)
    · obtain ⟨lexeme, tspan⟩ := t
      cases ht
      unfold statement
      rw [bind_of_ok (current_of_rest hr)]
      rfl
    · simp [Stmt.sameTree, hinit', hcond', hupdate', hb]
  simpa using h

theorem Reads.blockStatement (span : Span) (hd : Block bs body) (h : ReadsBlock block bs body) :
    ReadsStmt (statement room block) bs (.block body span) := by
  intro s ts rest hts hs hrest
  obtain ⟨b, s', hb, hc, hread⟩ := h s ts rest hts hs hrest
  refine ⟨.block b.1 b.2, s', by simpa [Stmt.sameTree] using hb, hc, ?_⟩
  obtain ⟨r, rfl⟩ := hd.exists_cons
  obtain ⟨⟨l, ospan⟩, us, rfl, ho, -⟩ := List.map_eq_cons_iff.1 hts
  cases ho
  unfold statement
  rw [bind_of_ok (current_of_rest hs)]
  dsimp only
  rw [bind_of_ok hread]
  rfl

/-- A statement without a keyword begins like an expression and is read as one. -/
theorem statement_of_expression {s : TokenCursor} {t : Token} {r : List Token}
    (hr : s.rest = t :: r)
    (ht : t.lexeme.spelling? = none ∨ t.lexeme = .leftParen ∨ t.lexeme = .op .sub) :
    statement room block s = (do
      let e ← expression room Precedence.lowest
      let semicolon ← expect .semicolon
      return Stmt.expr e (t.span.join semicolon.span)) s := by
  unfold statement
  rw [bind_of_ok (current_of_rest hr)]
  obtain ⟨lexeme, span⟩ := t
  cases lexeme <;> first | rfl | simp [Lexeme.spelling?] at ht

theorem Reads.exprStatement (span : Span) (hd : Derives .expr xs e) (h : ReadsExpr room xs e) :
    ReadsStmt (statement room block) (xs ++ [.semicolon]) (.expr e span) := by
  have hread : ∀ t : Token, ReadsStmt (do
      let e ← expression room Precedence.lowest
      let semicolon ← TokenReader.expect .semicolon
      return Stmt.expr e (t.span.join semicolon.span)) (xs ++ [.semicolon]) (.expr e span) :=
    fun t => h.bind (fun e' he => .expect fun _ => .done (by simpa [Stmt.sameTree] using he))
      fun _ rest hus _ => (begins_append rest hus).stops (by simp) _
  intro s ts rest hts hs hrest
  obtain ⟨l, r, rfl, hfirst⟩ := hd.exists_cons
  obtain ⟨t, us, rfl, ht, -⟩ := List.map_eq_cons_iff.1 hts
  rw [statement_of_expression hs (by rwa [ht])]
  exact hread t s (t :: us) rest hts hs hrest

/-- The lexemes of each statement in order are read as it. -/
inductive ReadsEach (statement : TokenReader Stmt) : List Lexeme → List Stmt → Prop
  | nil : ReadsEach statement [] []
  | cons {xs ys : List Lexeme} {stmt : Stmt} {body : List Stmt} :
    Statement xs stmt → ReadsStmt statement xs stmt → ReadsEach statement ys body →
      ReadsEach statement (xs ++ ys) (stmt :: body)

/-- The statements in front of a closing brace are read. -/
theorem ReadsEach.upToBrace {statement : TokenReader Stmt} (h : ReadsEach statement xs body) :
    ∀ (count : List Token) (done : List Stmt) (s : TokenCursor) {ts rest : List Token},
      ts.map Token.lexeme = xs → s.rest = ts ++ rest → Begins .rightBrace rest →
      s.rest.length ≤ count.length →
      ∃ body' s', sameTrees body' body = true ∧ Consumes s ts s' ∧
        statements statement count done s = .ok (done.reverse ++ body') s' := by
  induction h with
  | nil =>
    intro count done s ts rest hts hs hrest _
    obtain rfl := List.map_eq_nil_iff.1 hts
    obtain ⟨t, r, rfl, ht⟩ := hrest
    refine ⟨[], s, rfl, .refl s, ?_⟩
    rw [statements_of_brace count hs ht, List.append_nil]
  | @cons xs ys stmt body hd hstmt _ ih =>
    intro count done s ts rest hts hs hrest hlen
    obtain ⟨us, vs, rfl, hus, hvs⟩ := List.map_eq_append_iff.1 hts
    rw [List.append_assoc] at hs
    obtain ⟨stmt', s₁, hsame, hc, hread⟩ := hstmt s us (vs ++ rest) hus hs trivial
    have hlen' := congrArg List.length hc.rest
    have hpos := hd.length_pos
    rw [← hus, List.length_map] at hpos
    rw [List.length_append] at hlen'
    cases count with
    | nil => simp only [List.length_nil] at hlen; omega
    | cons k count =>
      rw [List.length_cons] at hlen
      obtain ⟨body', s₂, hbody, hc', hread'⟩ := ih count (stmt' :: done) s₁ hvs (hc.rest_eq hs)
        hrest (by omega)
      refine ⟨stmt' :: body', s₂, by simp [sameTrees, hsame, hbody], hc.trans hc', ?_⟩
      obtain ⟨t, us, rfl⟩ := List.exists_cons_of_length_pos hpos
      have hne : t.lexeme ≠ .rightBrace := hd.ne_rightBrace hus.symm
      rw [statements_of_cons count hs hne, bind_of_ok hread, hread']
      simp

/-- A block enters a level for its statements. -/
theorem ReadsEach.braces (h : ReadsEach (statement room (TokenReader.block room)) xs body) :
    ReadsBlock (TokenReader.block (room + 1)) (.leftBrace :: xs ++ [.rightBrace]) body := by
  intro s ts rest hts hs _
  obtain ⟨us, cs, rfl, hus, hcs⟩ := List.map_eq_append_iff.1 hts
  obtain ⟨o, vs, rfl, ho, hvs⟩ := List.map_eq_cons_iff.1 hus
  obtain ⟨c, rfl, hc⟩ := List.map_eq_singleton_iff.1 hcs
  have hsrest : s.rest = o :: (vs ++ c :: rest) := by simp [hs]
  have hpass : s.pass.rest = vs ++ c :: rest := by simp [hsrest]
  obtain ⟨body', s₁, hbody, hc₁, hread⟩ := h.upToBrace s.pass.rest []
    { s.pass with depth := s.pass.depth + 1 } hvs hpass ⟨c, rest, rfl, hc⟩ (Nat.le_refl _)
  have hinner : deeper (do
      statements (statement room (TokenReader.block room)) (← unread) []) s.pass =
      .ok body' { s₁ with depth := s₁.depth - 1 } := by
    refine deeper_eq_ok.2 ⟨s₁, ?_, rfl⟩
    rw [bind_of_ok (unread_eq _)]
    exact hread
  have hr₁ : ({ s₁ with depth := s₁.depth - 1 } : TokenCursor).rest = c :: rest :=
    hc₁.rest_eq hpass
  refine ⟨(body', o.span.join c.span), { s₁ with depth := s₁.depth - 1 }.pass, hbody,
    (Consumes.cons hsrest hc₁.deeper).trans (.pass hr₁), ?_⟩
  unfold TokenReader.block
  rw [bind_of_ok (expect_of_rest hsrest ho), bind_of_ok hinner, bind_of_ok (current_of_rest hr₁),
    bind_of_ok (pass_eq _)]
  rfl

/-- All statements are read, up to the last token. -/
theorem ReadsEach.upToEnd {statement : TokenReader Stmt} (h : ReadsEach statement xs body) :
    ∀ (count : List Token) (done : List Stmt) (s : TokenCursor),
      s.rest.map Token.lexeme = xs → s.rest.length ≤ count.length →
      ∃ body' s', sameTrees body' body = true ∧
        statementsToEnd statement count done s = .ok (done.reverse ++ body') s' := by
  induction h with
  | nil =>
    intro count done s hs _
    refine ⟨[], s, rfl, ?_⟩
    rw [statementsToEnd_of_nil count (List.map_eq_nil_iff.1 hs), List.append_nil]
  | @cons xs ys stmt body hd hstmt _ ih =>
    intro count done s hts hlen
    obtain ⟨us, vs, hs, hus, hvs⟩ := List.map_eq_append_iff.1 hts
    obtain ⟨stmt', s₁, hsame, hc, hread⟩ := hstmt s us vs hus hs trivial
    have hr₁ : s₁.rest = vs := hc.rest_eq hs
    have hpos := hd.length_pos
    rw [← hus, List.length_map] at hpos
    rw [hs, List.length_append] at hlen
    cases count with
    | nil => simp only [List.length_nil] at hlen; omega
    | cons k count =>
      rw [List.length_cons] at hlen
      obtain ⟨body', s₂, hbody, hread'⟩ := ih count (stmt' :: done) s₁ (by rwa [hr₁])
        (by rw [hr₁]; omega)
      refine ⟨stmt' :: body', s₂, by simp [sameTrees, hsame, hbody], ?_⟩
      obtain ⟨t, us, rfl⟩ := List.exists_cons_of_length_pos hpos
      rw [statementsToEnd_of_cons count hs, bind_of_ok hread, hread']
      simp

end Statements

end TokenReader

/-- Tokens whose lexemes are read statement by statement, in the room that the limit leaves, are
read as the program. -/
theorem TokenReader.ReadsEach.program {ts : List Token} {limit : Int} {p : Program}
    (h : ReadsEach (statement limit.toNat (block limit.toNat)) (ts.map Token.lexeme) p) :
    ∃ q, Program.ofTokens ts limit = .ok q ∧ sameTrees q p = true := by
  obtain ⟨q, s', hq, hread⟩ := h.upToEnd ts [] (TokenCursor.start ts limit) rfl (Nat.le_refl _)
  exact ⟨q, Program.ofTokens_eq_ok.2 ⟨s', hread⟩, hq⟩

end Imp32
