import Imp32.Proofs.Joining.Shift
import Imp32.Proofs.Reading.Lookahead

/-!
# Reading at another place

What a reader makes of some tokens it makes of the same tokens at another place and in front of
more, with its spans moved. A reader that looks at the next token does so unless it stands before
the end and something follows (`Carries`); one that ends with a token of its own always does
(`Closes`). Expressions are of the first kind, for the next token might be an operator, and
statements of the second (`Closes.statement`). So the statements of a program are read in front of
any other tokens, and the reading goes on with those (`statementsToEnd_moved`).
-/

namespace Imp32

/-- The second cursor stands before the tokens that the first has to read, moved by a number of
bytes, and before more. -/
def Moved (n : Int) (more : List Token) (s t : TokenCursor) : Prop :=
  t.rest = s.rest.map (·.shift n) ++ more

namespace Moved

variable {n : Int} {more : List Token} {s t : TokenCursor} {u : Token} {r : List Token}

theorem exists_moved (n : Int) (more : List Token) (s : TokenCursor) : ∃ t, Moved n more s t :=
  ⟨{ s with rest := s.rest.map (·.shift n) ++ more }, rfl⟩

theorem cons (h : Moved n more s t) (hr : s.rest = u :: r) :
    t.rest = u.shift n :: (r.map (·.shift n) ++ more) := by
  unfold Moved at h
  rw [h, hr, List.map_cons, List.cons_append]

theorem pass (h : Moved n more s t) (hr : s.rest = u :: r) : Moved n more s.pass t.pass := by
  show t.rest.tail = s.rest.tail.map (·.shift n) ++ more
  rw [h.cons hr, hr, List.tail_cons, List.tail_cons]

theorem nil (h : Moved n [] s t) (hr : s.rest = []) : t.rest = [] := by
  unfold Moved at h
  rw [h, hr]
  rfl

theorem length_le (h : Moved n more s t) {s' t' : TokenCursor} (h' : Moved n more s' t')
    (hle : s'.rest.length ≤ s.rest.length) : t'.rest.length ≤ t.rest.length := by
  unfold Moved at h h'
  rw [h, h']
  simpa using hle

theorem length_lt (h : Moved n more s t) {s' t' : TokenCursor} (h' : Moved n more s' t')
    (hlt : s'.rest.length < s.rest.length) : t'.rest.length < t.rest.length := by
  unfold Moved at h h'
  rw [h, h']
  simpa using hlt

/-- Operators that end here end there, if nothing follows the end. -/
theorem stops {least : Nat} (h : Moved n more s t) (hend : s.rest = [] → more = [])
    (hstop : Stops least s.rest) : Stops least t.rest := by
  cases hr : s.rest with
  | nil =>
    obtain rfl := hend hr
    exact h.nil hr ▸ stops_nil least
  | cons u r =>
    rw [h.cons hr]
    intro op span r' hr'
    obtain ⟨lexeme, uspan⟩ := u
    obtain ⟨hlexeme, -⟩ := Token.mk.inj (List.cons.inj hr').1
    subst hlexeme
    exact hstop op uspan r hr

end Moved

namespace TokenReader

variable {α β γ δ : Type} {n : Int} {more : List Token} {s t : TokenCursor}

/-! ## Readers that carry over -/

/-- What the first result says of the cursor `s`, the second one says of a moved cursor: nothing is
put back, and unless something follows the end the results are the same up to `f`. -/
def Carried (n : Int) (more : List Token) (f : α → β) (s : TokenCursor)
    (x : EStateM.Result ParseError TokenCursor α) (y : EStateM.Result ParseError TokenCursor β) :
    Prop :=
  ∀ a s', x = .ok a s' → s'.rest <:+ s.rest ∧
    ((s'.rest = [] → more = []) → ∃ t', y = .ok (f a) t' ∧ Moved n more s' t')

/-- The second reader does on moved tokens what the first does, up to `f`. -/
def Carries (n : Int) (more : List Token) (f : α → β) (x : TokenReader α) (y : TokenReader β) :
    Prop :=
  ∀ s t, Moved n more s t → Carried n more f s (x s) (y t)

/-- The second reader does on moved tokens what the first does, up to `f`, whatever follows; and a
token at least is taken. -/
def Closes (n : Int) (more : List Token) (f : α → β) (x : TokenReader α) (y : TokenReader β) :
    Prop :=
  ∀ s t, Moved n more s t → ∀ a s', x s = .ok a s' →
    s'.rest <:+ s.rest ∧ s'.rest.length < s.rest.length ∧
      ∃ t', y t = .ok (f a) t' ∧ Moved n more s' t'

section Combining

variable {f : α → β} {g : γ → δ} {x : TokenReader α} {y : TokenReader β}
  {k : α → TokenReader γ} {l : β → TokenReader δ}

theorem Closes.carries (h : Closes n more f x y) : Carries n more f x y := by
  intro s t hst a s' hx
  obtain ⟨hsuffix, -, hy⟩ := h s t hst a s' hx
  exact ⟨hsuffix, fun _ => hy⟩

theorem Carries.pure (a : α) : Carries n more f (pure a) (pure (f a)) := by
  intro s t hst a' s' hx
  obtain ⟨rfl, rfl⟩ := pure_eq_ok.1 hx
  exact ⟨List.suffix_refl _, fun _ => ⟨t, rfl, hst⟩⟩

theorem Carries.throw {e : ParseError} {y : TokenReader β} :
    Carries n more f (throw e : TokenReader α) y :=
  fun _ _ _ _ _ hx => nomatch hx

theorem Carries.refuse {y : TokenReader β} : Carries n more f (refuse : TokenReader α) y :=
  fun _ _ _ _ _ hx => nomatch hx

/-- One reader behind the other: what is left in the end was left in between. -/
theorem Carried.bind (hx : Carried n more f s (x s) (y t))
    (hk : ∀ a s' t', x s = .ok a s' → Moved n more s' t' →
      Carried n more g s' (k a s') (l (f a) t')) :
    Carried n more g s ((x >>= k) s) ((y >>= l) t) := by
  intro c s'' hxk
  obtain ⟨a, s', ha, hc⟩ := bind_eq_ok.1 hxk
  obtain ⟨hfirst, hy⟩ := hx a s' ha
  have hsecond : s''.rest <:+ s'.rest := by
    obtain ⟨t', hst'⟩ := Moved.exists_moved n more s'
    exact (hk a s' t' ha hst' c s'' hc).1
  refine ⟨hsecond.trans hfirst, fun hend => ?_⟩
  obtain ⟨t', hy, hst'⟩ := hy fun hr => hend (List.suffix_nil.1 (hr ▸ hsecond))
  obtain ⟨t'', hl, hst''⟩ := (hk a s' t' ha hst' c s'' hc).2 hend
  exact ⟨t'', bind_eq_ok.2 ⟨f a, t', hy, hl⟩, hst''⟩

theorem Carries.bind (hx : Carries n more f x y) (hk : ∀ a, Carries n more g (k a) (l (f a))) :
    Carries n more g (x >>= k) (y >>= l) :=
  fun s t hst => (hx s t hst).bind fun a s' t' _ hst' => hk a s' t' hst'

/-- What closes with a token of its own closes what stands in front of it. -/
theorem Carries.bind_closes (hx : Carries n more f x y)
    (hk : ∀ a, Closes n more g (k a) (l (f a))) : Closes n more g (x >>= k) (y >>= l) := by
  intro s t hst c s'' hxk
  obtain ⟨a, s', ha, hc⟩ := bind_eq_ok.1 hxk
  obtain ⟨hfirst, hy⟩ := hx s t hst a s' ha
  have hpos : s'.rest ≠ [] := by
    intro hr
    obtain ⟨t', hst'⟩ := Moved.exists_moved n more s'
    have hless := (hk a s' t' hst' c s'' hc).2.1
    rw [hr] at hless
    exact Nat.not_lt_zero _ hless
  obtain ⟨t', hy, hst'⟩ := hy fun hr => absurd hr hpos
  obtain ⟨hsecond, hless, t'', hl, hst''⟩ := hk a s' t' hst' c s'' hc
  exact ⟨hsecond.trans hfirst, Nat.lt_of_lt_of_le hless hfirst.length_le, t'',
    bind_eq_ok.2 ⟨f a, t', hy, hl⟩, hst''⟩

/-- What is made of a result does not look at what follows. -/
theorem Closes.map {h : α → γ} {i : β → δ} (hx : Closes n more f x y)
    (hi : ∀ a, i (f a) = g (h a)) :
    Closes n more g (x >>= fun a => Pure.pure (h a)) (y >>= fun b => Pure.pure (i b)) := by
  intro s t hst c s' hxk
  obtain ⟨a, s₁, ha, hc⟩ := bind_eq_ok.1 hxk
  obtain ⟨rfl, rfl⟩ := pure_eq_ok.1 hc
  obtain ⟨hsuffix, hless, t', hy, hst'⟩ := hx s t hst a s₁ ha
  refine ⟨hsuffix, hless, t', ?_, hst'⟩
  rw [bind_of_ok hy, hi]
  rfl

theorem Carries.deeper (hx : Carries n more f x y) : Carries n more f (deeper x) (deeper y) := by
  intro s t hst a s' h
  obtain ⟨s₁, h₁, rfl⟩ := deeper_eq_ok.1 h
  obtain ⟨hsuffix, hy⟩ :=
    hx { s with depth := s.depth + 1 } { t with depth := t.depth + 1 } hst a s₁ h₁
  refine ⟨hsuffix, fun hend => ?_⟩
  obtain ⟨t₁, ht₁, hst₁⟩ := hy hend
  exact ⟨_, deeper_eq_ok.2 ⟨t₁, ht₁, rfl⟩, hst₁⟩

end Combining

/-! ## Small readers -/

theorem Carries.peek : Carries n more (Option.map (·.shift n)) peek peek := by
  intro s t hst a s' h
  cases h
  refine ⟨List.suffix_refl _, fun hend => ⟨t, ?_, hst⟩⟩
  rw [peek_eq]
  congr 1
  cases hr : s.rest with
  | nil =>
    obtain rfl := hend hr
    rw [hst.nil hr]
    rfl
  | cons u r =>
    rw [hst.cons hr]
    rfl

theorem Carries.pass : Carries n more id pass pass := by
  intro s t hst a s' h
  cases h
  refine ⟨List.tail_suffix s.rest, fun hend => ⟨t.pass, rfl, ?_⟩⟩
  cases hr : s.rest with
  | nil =>
    obtain rfl := hend (by rw [TokenCursor.rest_pass, hr]; rfl)
    show t.rest.tail = s.rest.tail.map (·.shift n) ++ []
    rw [hst.nil hr, hr]
    rfl
  | cons u r => exact hst.pass hr

theorem Carries.current : Carries n more (·.shift n) current current :=
  Carries.peek.bind fun u => by
    cases u with
    | some u => exact .pure u
    | none => exact .throw

theorem Closes.expect (lexeme : Lexeme) :
    Closes n more (·.shift n) (expect lexeme) (expect lexeme) := by
  intro s t hst u s' h
  obtain ⟨rfl, hu, r, hr⟩ := expect_eq_ok.1 h
  refine ⟨List.tail_suffix s.rest, ?_, t.pass, expect_of_rest (hst.cons hr) hu, hst.pass hr⟩
  rw [TokenCursor.rest_pass, hr]
  exact Nat.lt_succ_self _

/-! ## Expressions -/

section Expressions

variable {inner inner' : Nat → TokenReader Expr}

theorem Carries.operand (h : ∀ least, Carries n more (·.shift n) (inner least) (inner' least)) :
    Carries n more (·.shift n) (operand inner) (operand inner') := by
  refine Carries.current.bind fun t => ?_
  obtain ⟨lexeme, span⟩ := t
  cases lexeme with
  | num v => exact Carries.pass.bind fun _ => .pure (Expr.value v span)
  | ident name => exact Carries.pass.bind fun _ => .pure (Expr.var name span)
  | op op =>
    cases op with
    | sub =>
      refine Carries.pass.bind fun _ => (h _).bind fun a => ?_
      have hspan : (span.shift n).join (a.shift n).span = (span.join a.span).shift n := by
        rw [Expr.span_shift, Span.shift_join]
      show Carries n more _ _ (Pure.pure (Expr.neg (a.shift n) ((span.shift n).join _)))
      rw [hspan]
      exact .pure (Expr.neg a (span.join a.span))
    | _ => exact .throw
  | leftParen =>
    refine Carries.pass.bind fun _ => (h _).bind fun a => Carries.peek.bind fun u => ?_
    rcases u with _ | ⟨lexeme, uspan⟩
    · exact .throw
    · cases lexeme with
      | rightParen => exact Carries.pass.bind fun _ => .pure a
      | _ => exact .throw
  | _ => exact .throw

theorem accepts_shift (op : BinaryOp) (lhs : Expr) : accepts op (lhs.shift n) = accepts op lhs := by
  cases op <;> cases lhs <;> rfl

/-- The operator loop carries over; neither count is a bound. -/
theorem Carried.operators (h : ∀ least, Carries n more (·.shift n) (inner least) (inner' least))
    {least : Nat} : ∀ (count count' : List Token) (s t : TokenCursor) (lhs : Expr),
      Moved n more s t → s.rest.length ≤ count.length → t.rest.length ≤ count'.length →
      Carried n more (·.shift n) s (operators inner least count lhs s)
        (operators inner' least count' (lhs.shift n) t) := by
  have stop : ∀ (count count' : List Token) (s t : TokenCursor) (lhs : Expr), Moved n more s t →
      Stops least s.rest → Carried n more (fun e : Expr => e.shift n) s
        (TokenReader.operators inner least count lhs s)
        (TokenReader.operators inner' least count' (lhs.shift n) t) := by
    intro count count' s t lhs hst hstop a s' ha
    rw [operators_of_stops count hstop] at ha
    cases ha
    exact ⟨List.suffix_refl _, fun hend =>
      ⟨t, operators_of_stops count' (hst.stops hend hstop), hst⟩⟩
  intro count
  induction count with
  | nil =>
    intro count' s t lhs hst hlen _
    have hr : s.rest = [] := List.eq_nil_of_length_eq_zero (Nat.le_zero.1 hlen)
    exact stop [] count' s t lhs hst (hr ▸ stops_nil least)
  | cons k count ih =>
    intro count' s t lhs hst hlen hlen'
    by_cases hstop : Stops least s.rest
    · exact stop _ count' s t lhs hst hstop
    · obtain ⟨op, span, r, hr, hprec⟩ := exists_op_of_not_stops hstop
      have hr' := hst.cons hr
      have hpass := hst.pass hr
      cases count' with
      | nil => simp [hr'] at hlen'
      | cons k' count' =>
        rw [operators_of_op k count hr hprec, operators_of_op k' count' hr' hprec, accepts_shift]
        split
        · have hcarried : Carried n more (fun e : Expr => e.shift n) s.pass
              ((inner op.rightOperand >>= fun rhs => TokenReader.operators inner least count
                (.binary lhs op rhs (lhs.span.join rhs.span))) s.pass)
              ((inner' op.rightOperand >>= fun rhs => TokenReader.operators inner' least count'
                (.binary (lhs.shift n) op rhs ((lhs.shift n).span.join rhs.span))) t.pass) := by
            refine (h _ s.pass t.pass hpass).bind fun rhs s₁ t₁ hrhs hst₁ => ?_
            have hle := (h _ s.pass t.pass hpass rhs s₁ hrhs).1.length_le
            have hle' := hpass.length_le hst₁ hle
            rw [TokenCursor.rest_pass, hr, List.tail_cons] at hle
            rw [TokenCursor.rest_pass, hr', List.tail_cons] at hle'
            rw [hr, List.length_cons, List.length_cons] at hlen
            rw [hr', List.length_cons, List.length_cons] at hlen'
            rw [Expr.span_shift, Expr.span_shift, ← Span.shift_join]
            exact ih count' s₁ t₁ _ hst₁ (by omega) (by omega)
          intro a s' ha
          obtain ⟨hsuffix, hy⟩ := hcarried a s' ha
          exact ⟨hsuffix.trans (List.tail_suffix s.rest), hy⟩
        · exact fun _ _ ha => nomatch ha

theorem Carries.expression (room least : Nat) :
    Carries n more (·.shift n) (expression room least) (expression room least) := by
  induction room generalizing least with
  | zero => exact .refuse
  | succ room ih =>
    refine .deeper fun s t hst => (Carries.operand ih s t hst).bind fun lhs s' t' _ hst' => ?_
    exact Carried.operators ih _ _ s' t' lhs hst' (Nat.le_refl _) (Nat.le_refl _)

end Expressions

/-! ## Statements -/

section Statements

variable {room : Nat} {braces : TokenReader (List Stmt × Span)} {stmt : TokenReader Stmt}

def shiftBlock (n : Int) (b : List Stmt × Span) : List Stmt × Span :=
  (shiftAll b.1 n, b.2.shift n)

theorem Carries.clause (room : Nat) (terminator : Lexeme) :
    Carries n more (Option.map (·.shift n)) (clause room terminator) (clause room terminator) := by
  have hsome : Carries n more (Option.map (·.shift n))
      (some <$> TokenReader.expression room Precedence.lowest)
      (some <$> TokenReader.expression room Precedence.lowest) := by
    rw [← bind_pure_comp]
    exact (Carries.expression room _).bind fun e => .pure (some e)
  refine Carries.peek.bind fun u => ?_
  cases u with
  | none => exact hsome
  | some u =>
    show Carries n more _ (ite (u.lexeme = terminator) _ _) (ite (u.lexeme = terminator) _ _)
    split
    · exact .pure none
    · exact hsome

theorem Closes.condition (room : Nat) :
    Closes n more (·.shift n) (condition room) (condition room) :=
  (Closes.expect .leftParen).carries.bind_closes fun _ =>
    (Carries.expression room _).bind_closes fun _ => (Closes.expect .rightParen).map fun _ => rfl

theorem Closes.statement (h : Closes n more (shiftBlock n) braces braces) :
    Closes n more (·.shift n) (statement room braces) (statement room braces) := by
  refine Carries.current.bind_closes fun t => ?_
  obtain ⟨lexeme, span⟩ := t
  have simple : Closes n more (·.shift n)
      (TokenReader.expression room Precedence.lowest >>= fun e => TokenReader.expect .semicolon >>=
        fun c => pure (Stmt.expr e (span.join c.span)))
      (TokenReader.expression room Precedence.lowest >>= fun e => TokenReader.expect .semicolon >>=
        fun c => pure (Stmt.expr e ((span.shift n).join c.span))) :=
    (Carries.expression room _).bind_closes fun e => (Closes.expect .semicolon).map fun c => by
      simp [Stmt.shift, Token.shift, Span.shift_join]
  cases lexeme with
  | ifWord =>
    exact Carries.pass.bind_closes fun _ => (Closes.condition room).carries.bind_closes fun e =>
      h.map fun b => by simp [Stmt.shift, shiftBlock, Token.shift, Span.shift_join]
  | whileWord =>
    exact Carries.pass.bind_closes fun _ => (Closes.condition room).carries.bind_closes fun e =>
      h.map fun b => by simp [Stmt.shift, shiftBlock, Token.shift, Span.shift_join]
  | forWord =>
    exact Carries.pass.bind_closes fun _ => (Closes.expect _).carries.bind_closes fun _ =>
      (Carries.clause room _).bind_closes fun init => (Closes.expect _).carries.bind_closes fun _ =>
      (Carries.clause room _).bind_closes fun cond => (Closes.expect _).carries.bind_closes fun _ =>
      (Carries.clause room _).bind_closes fun update =>
      (Closes.expect _).carries.bind_closes fun _ =>
      h.map fun b => by simp [Stmt.shift, shiftBlock, Token.shift, Span.shift_join]
  | leftBrace => exact h.map fun b => rfl
  | _ => exact simple

/-- The statements of a block end in front of a brace, so they do not look at what follows. -/
theorem Carried.statements (h : Closes n more (·.shift n) stmt stmt) :
    ∀ (count count' : List Token) (s t : TokenCursor) (done : List Stmt), Moved n more s t →
      s.rest.length ≤ count.length → t.rest.length ≤ count'.length →
      Carried n more (shiftAll · n) s (statements stmt count done s)
        (statements stmt count' (shiftAll done n) t) := by
  intro count
  induction count with
  | nil =>
    intro count' s t done _ hlen _ body s' hbody
    have hr : s.rest = [] := List.eq_nil_of_length_eq_zero (Nat.le_zero.1 hlen)
    rw [statements_of_nil [] hr] at hbody
    cases hbody
  | cons k count ih =>
    intro count' s t done hst hlen hlen'
    cases hr : s.rest with
    | nil =>
      rw [statements_of_nil _ hr]
      exact fun _ _ hbody => nomatch hbody
    | cons u r =>
      have hr' := hst.cons hr
      by_cases hu : u.lexeme = .rightBrace
      · intro body s' hbody
        rw [statements_of_brace _ hr hu] at hbody
        cases hbody
        refine ⟨List.suffix_refl _, fun _ => ⟨t, ?_, hst⟩⟩
        rw [statements_of_brace (t := u.shift n) count' hr' hu, ← shiftAll_reverse]
      · cases count' with
        | nil => simp [hr'] at hlen'
        | cons k' count' =>
          rw [statements_of_cons count hr hu, statements_of_cons (t := u.shift n) count' hr' hu]
          refine (h.carries s t hst).bind fun a s₁ t₁ ha hst₁ => ?_
          have hless := (h s t hst a s₁ ha).2.1
          have hless' := hst.length_lt hst₁ hless
          rw [List.length_cons] at hlen hlen'
          exact ih count' s₁ t₁ (a :: done) hst₁ (by omega) (by omega)

theorem Closes.block (room : Nat) : Closes n more (shiftBlock n) (block room) (block room) := by
  induction room with
  | zero =>
    intro s t _ b s' h
    obtain ⟨o, s₁, -, h⟩ := bind_eq_ok.1 h
    cases h
  | succ room ih =>
    have hbody : Carries n more (shiftAll · n)
        (TokenReader.deeper (unread >>= fun count => statements (TokenReader.statement room
          (TokenReader.block room)) count []))
        (TokenReader.deeper (unread >>= fun count => statements (TokenReader.statement room
          (TokenReader.block room)) count [])) :=
      .deeper fun s t hst => Carried.statements (.statement ih) _ _ s t [] hst (Nat.le_refl _)
        (Nat.le_refl _)
    refine (Closes.expect _).carries.bind_closes fun o => hbody.bind_closes fun body => ?_
    intro s t hst b s' h
    obtain ⟨c, s₁, hc, hpass⟩ := bind_eq_ok.1 h
    obtain ⟨rfl, r, hr⟩ := current_eq_ok.1 hc
    rw [bind_of_ok (pass_eq s₁)] at hpass
    obtain ⟨rfl, rfl⟩ := pure_eq_ok.1 hpass
    refine ⟨List.tail_suffix _, ?_, t.pass, ?_, hst.pass hr⟩
    · rw [TokenCursor.rest_pass, hr]
      exact Nat.lt_succ_self _
    · rw [bind_of_ok (current_of_rest (hst.cons hr))]
      show EStateM.Result.ok (_, (o.span.shift n).join (c.span.shift n)) t.pass = _
      rw [← Span.shift_join]
      rfl

/-- Statements that are read to the end are read in front of any tokens, and then the reading goes
on with those. -/
theorem statementsToEnd_moved (h : Closes n more (·.shift n) stmt stmt) :
    ∀ (count count' : List Token) (s t : TokenCursor) (done earlier : List Stmt) (p : Program)
      (s' : TokenCursor), Moved n more s t → s.rest.length ≤ count.length →
      t.rest.length ≤ count'.length → statementsToEnd stmt count done s = .ok p s' →
      ∃ q count'' t', p = done.reverse ++ q ∧ t'.rest = more ∧ more.length ≤ count''.length ∧
        statementsToEnd stmt count' earlier t =
          statementsToEnd stmt count'' ((shiftAll q n).reverse ++ earlier) t' := by
  have stop : ∀ (count count' : List Token) (s t : TokenCursor) (done earlier : List Stmt)
      (p : Program) (s' : TokenCursor), Moved n more s t → t.rest.length ≤ count'.length →
      s.rest = [] → statementsToEnd stmt count done s = .ok p s' →
      ∃ q count'' t', p = done.reverse ++ q ∧ t'.rest = more ∧ more.length ≤ count''.length ∧
        statementsToEnd stmt count' earlier t =
          statementsToEnd stmt count'' ((shiftAll q n).reverse ++ earlier) t' := by
    intro count count' s t done earlier p s' hst hlen' hr hp
    have hmore : t.rest = more := by
      unfold Moved at hst
      rw [hst, hr]
      rfl
    rw [statementsToEnd_of_nil count hr] at hp
    cases hp
    exact ⟨[], count', t, (List.append_nil _).symm, hmore, hmore ▸ hlen', rfl⟩
  intro count
  induction count with
  | nil =>
    intro count' s t done earlier p s' hst hlen hlen' hp
    exact stop [] count' s t done earlier p s' hst hlen'
      (List.eq_nil_of_length_eq_zero (Nat.le_zero.1 hlen)) hp
  | cons k count ih =>
    intro count' s t done earlier p s' hst hlen hlen' hp
    cases hr : s.rest with
    | nil => exact stop _ count' s t done earlier p s' hst hlen' hr hp
    | cons u r =>
      have hr' := hst.cons hr
      cases count' with
      | nil => simp [hr'] at hlen'
      | cons k' count' =>
        rw [statementsToEnd_of_cons count hr] at hp
        obtain ⟨a, s₁, ha, hp⟩ := bind_eq_ok.1 hp
        obtain ⟨-, hless, t₁, ht₁, hst₁⟩ := h s t hst a s₁ ha
        have hless' := hst.length_lt hst₁ hless
        rw [List.length_cons] at hlen hlen'
        obtain ⟨q, count'', t', rfl, hmore, hcount, hread⟩ := ih count' s₁ t₁ (a :: done)
          (a.shift n :: earlier) p s' hst₁ (by omega) (by omega) hp
        refine ⟨a :: q, count'', t', by simp, hmore, hcount, ?_⟩
        rw [statementsToEnd_of_cons count' hr', bind_of_ok ht₁, hread]
        simp [shiftAll]

end Statements

end TokenReader

end Imp32
