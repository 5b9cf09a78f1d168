import Imp32.Proofs.Parentheses
import Imp32.Proofs.Reading.Lookahead
import Mathlib.Computability.Language

/-!
# What an error leaves possible

Wherever a reader fails, the tokens in front of the place of the error can be completed: they begin
a word of the language that the reader reads (`Completes`). The languages of the readers are put
together as the readers are, by concatenation (`Completes.bind`).

Of each error it is shown as well how it goes with the tokens around its place
(`ParseError.Fits`): the limit of nesting is exceeded behind a token for each level only, and a
parenthesis that is not closed is the innermost one that is open.
-/

namespace Imp32

open Grammar

/-! ## Open parentheses -/

/-- The parentheses that are open behind the tokens, the innermost first, if these were open in
front of them. -/
def openParens (stack : List Token) : List Token → List Token
  | [] => stack
  | t :: ts =>
    match t.lexeme with
    | .leftParen => openParens (t :: stack) ts
    | .rightParen => openParens stack.tail ts
    | _ => openParens stack ts

theorem openParens_append (ts us : List Token) :
    ∀ stack, openParens stack (ts ++ us) = openParens (openParens stack ts) us := by
  induction ts with
  | nil => exact fun _ => rfl
  | cons t ts ih =>
    intro stack
    rw [List.cons_append, openParens, openParens]
    split <;> exact ih _

/-- As long as none is closed that is not open, the parentheses below do not matter. -/
theorem openParens_of_nestAll? {ts : List Token} : ∀ (above : List Token) {depth : Nat},
    nestAll? above.length (ts.map Token.lexeme) = some depth →
      (openParens above ts).length = depth ∧
        ∀ stack, openParens (above ++ stack) ts = openParens above ts ++ stack := by
  induction ts with
  | nil => exact fun above depth h => ⟨Option.some.inj h, fun _ => rfl⟩
  | cons t ts ih =>
    intro above depth h
    rw [List.map_cons, nestAll?_cons] at h
    obtain ⟨next, hnext, hrest⟩ := Option.bind_eq_some_iff.1 h
    simp only [openParens]
    cases hl : t.lexeme with
    | leftParen =>
      rw [hl] at hnext
      cases hnext
      exact ih (t :: above) hrest
    | rightParen =>
      rw [hl] at hnext
      cases above with
      | nil => cases hnext
      | cons o above =>
        cases hnext
        exact ih above hrest
    | _ =>
      rw [hl] at hnext
      cases hnext
      exact ih above hrest

namespace Grammar

/-- Tokens that leave just those parentheses open that were open before. -/
def Balanced (xs : List Lexeme) : Prop :=
  ∀ (ts : List Token), ts.map Token.lexeme = xs → ∀ stack, openParens stack ts = stack

theorem balanced_of_parensMatch {xs : List Lexeme} (h : ParensMatch xs) : Balanced xs := by
  rintro ts rfl stack
  obtain ⟨hlength, hstack⟩ := openParens_of_nestAll? [] h
  have hall := hstack stack
  rwa [List.eq_nil_of_length_eq_zero hlength] at hall

theorem Derives.balanced {c : Category} {xs : List Lexeme} {e : Expr} (h : Derives c xs e) :
    Balanced xs :=
  balanced_of_parensMatch h.frames.parens

/-! ## The languages of the readers -/

def expressionWords (c : Category) : Language Lexeme := {xs | ∃ e, Derives c xs e}

def clauseWords : Language Lexeme := {xs | ∃ e, Clause xs e}

def blockWords : Language Lexeme := {bs | ∃ body, Block bs body}

def statementWords : Language Lexeme := {xs | ∃ stmt, Statement xs stmt}

def programWords : Language Lexeme := {xs | ∃ p, Statements xs p}

end Grammar

/-! ## Where an error stands -/

/-- How an error goes with the tokens that have been taken, the tokens behind its place and the room
for levels. -/
def ParseError.Fits (room : Nat) (us rest : List Token) : ParseError → Prop
  | .unexpectedToken t | .invalidAssignmentTarget t => rest.head? = some t
  | .unexpectedEnd => rest = []
  | .unmatchedLeftParen t => ∀ stack, (openParens stack us).head? = some t
  | .nestingTooDeep _ _ | .nestingTooDeepAtNothing => room ≤ us.length

theorem ParseError.Fits.behind {room k : Nat} {us rest vs : List Token} {e : ParseError}
    (h : e.Fits room us rest) (hk : k ≤ vs.length) : e.Fits (room + k) (vs ++ us) rest := by
  cases e with
  | unmatchedLeftParen t =>
    intro stack
    rw [openParens_append]
    exact h _
  | nestingTooDeep t limit =>
    simp only [Fits, List.length_append] at h ⊢
    omega
  | nestingTooDeepAtNothing =>
    simp only [Fits, List.length_append] at h ⊢
    omega
  | _ => exact h

/-- The error stands behind tokens that begin a word of the language. -/
def Stuck (room : Nat) (L : Language Lexeme) (s : TokenCursor) (e : ParseError)
    (s' : TokenCursor) : Prop :=
  ∃ us rest zs, s.rest = us ++ rest ∧ s'.read = s.read + us.length + e.passed ∧ e.Fits room us rest ∧
    us.map Token.lexeme ++ zs ∈ L

namespace Stuck

variable {room : Nat} {L L' : Language Lexeme} {s s₁ s' : TokenCursor} {e : ParseError}

theorem mono (h : Stuck room L s e s') (hL : ∀ xs ∈ L, xs ∈ L') : Stuck room L' s e s' := by
  obtain ⟨us, rest, zs, hs, hread, hfits, hword⟩ := h
  exact ⟨us, rest, zs, hs, hread, hfits, hL _ hword⟩

/-- An error at the cursor. -/
theorem here {xs : List Lexeme} (hread : s'.read = s.read + e.passed) (hfits : e.Fits room [] s.rest)
    (hxs : xs ∈ L) : Stuck room L s e s' :=
  ⟨[], s.rest, xs, rfl, hread, hfits, hxs⟩

/-- An error behind tokens of which some have entered a level. -/
theorem behind {vs : List Token} {k : Nat} (hc : Consumes s vs s₁) (h : Stuck room L s₁ e s')
    (hk : k ≤ vs.length) (hL : ∀ xs ∈ L, vs.map Token.lexeme ++ xs ∈ L') :
    Stuck (room + k) L' s e s' := by
  obtain ⟨us, rest, zs, hs, hread, hfits, hword⟩ := h
  refine ⟨vs ++ us, rest, zs, ?_, ?_, hfits.behind hk, ?_⟩
  · rw [hc.rest, hs, List.append_assoc]
  · rw [hread, hc.read, List.length_append, Nat.add_assoc s.read]
  · rw [List.map_append, List.append_assoc]
    exact hL _ hword

/-- An error with something to be read behind it. -/
theorem before (h : Stuck room L s e s') (hL : ∃ ys, ∀ xs ∈ L, xs ++ ys ∈ L') :
    Stuck room L' s e s' := by
  obtain ⟨us, rest, zs, hs, hread, hfits, hword⟩ := h
  obtain ⟨ys, hys⟩ := hL
  refine ⟨us, rest, zs ++ ys, hs, hread, hfits, ?_⟩
  rw [← List.append_assoc]
  exact hys _ hword

/-- Levels are not looked at. -/
theorem ofDeeper (h : Stuck room L { s with depth := s.depth + 1 } e s') :
    Stuck room L s e { s' with depth := s'.depth - 1 } := by
  obtain ⟨us, rest, zs, hs, hread, hfits, hword⟩ := h
  exact ⟨us, rest, zs, hs, hread, hfits, hword⟩

end Stuck

instance : Inhabited Token := ⟨⟨.semicolon, .none⟩⟩

namespace TokenReader

variable {α β : Type} {room : Nat} {L L' : Language Lexeme}

/-- The reader takes words of the language, and fails where they can be completed. -/
structure Completes (room : Nat) (L : Language Lexeme) (read : TokenReader α) : Prop where
  taken {s s' : TokenCursor} {a : α} : read s = .ok a s' →
    ∃ us, Consumes s us s' ∧ us.map Token.lexeme ∈ L
  stuck {s s' : TokenCursor} {e : ParseError} : read s = .error e s' → Stuck room L s e s'
  nonempty : ∃ xs, xs ∈ L

namespace Completes

variable {x : TokenReader α} {f : α → TokenReader β}

theorem pure (a : α) : Completes room 1 (pure a : TokenReader α) where
  taken {s s' a'} h := by
    obtain ⟨-, rfl⟩ := pure_eq_ok.1 h
    exact ⟨[], .refl s, Language.nil_mem_one⟩
  stuck h := nomatch h
  nonempty := ⟨[], Language.nil_mem_one⟩

theorem bind (hx : Completes room L x) (hf : ∀ a, Completes room L' (f a)) [Nonempty α] :
    Completes room (L * L') (x >>= f) where
  taken h := by
    obtain ⟨a, s₁, ha, hb⟩ := bind_eq_ok.1 h
    obtain ⟨us, hus, husL⟩ := hx.taken ha
    obtain ⟨vs, hvs, hvsL⟩ := (hf a).taken hb
    refine ⟨us ++ vs, hus.trans hvs, ?_⟩
    rw [List.map_append]
    exact Language.append_mem_mul husL hvsL
  stuck h := by
    rcases bind_eq_error.1 h with h | ⟨a, s₁, ha, h⟩
    · obtain ⟨ys, hys⟩ := (hf (Classical.arbitrary α)).nonempty
      exact (hx.stuck h).before ⟨ys, fun xs hxs => Language.append_mem_mul hxs hys⟩
    · obtain ⟨us, hus, husL⟩ := hx.taken ha
      exact ((hf a).stuck h).behind hus (Nat.zero_le _)
        fun xs hxs => Language.append_mem_mul husL hxs
  nonempty := by
    obtain ⟨xs, hxs⟩ := hx.nonempty
    obtain ⟨ys, hys⟩ := (hf (Classical.arbitrary α)).nonempty
    exact ⟨xs ++ ys, Language.append_mem_mul hxs hys⟩

end Completes

/-! ## Small readers -/

section Small

variable {s s' : TokenCursor} {e : ParseError}

theorem current_eq_error (h : current s = .error e s') :
    s.rest = [] ∧ e = .unexpectedEnd ∧ s' = s := by
  unfold current at h
  rw [bind_of_ok (peek_eq s)] at h
  cases hr : s.rest with
  | nil =>
    rw [hr] at h
    cases h
    exact ⟨rfl, rfl, rfl⟩
  | cons t r =>
    rw [hr] at h
    cases h

/-- There is no token where one has to be. -/
theorem current_stuck (h : current s = .error e s') {xs : List Lexeme} (hxs : xs ∈ L) :
    Stuck room L s e s' := by
  obtain ⟨hr, rfl, rfl⟩ := current_eq_error h
  exact .here rfl hr hxs

theorem expect_completes (lexeme : Lexeme) :
    Completes room {[lexeme]} (expect lexeme) where
  taken h := by
    obtain ⟨hc, hl⟩ := expect_sound h
    exact ⟨_, hc, hl⟩
  stuck {s s' e} h := by
    unfold expect at h
    rcases bind_eq_error.1 h with hcurrent | ⟨t, s₁, ht, hk⟩
    · exact current_stuck hcurrent (Set.mem_singleton _)
    · obtain ⟨rfl, r, hr⟩ := current_eq_ok.1 ht
      split at hk
      · cases hk
      · cases hk
        exact .here rfl (by rw [hr]; rfl) (Set.mem_singleton _)
  nonempty := ⟨[lexeme], Set.mem_singleton _⟩

theorem deeper_eq_error {action : TokenReader α} :
    deeper action s = .error e s' ↔
      ∃ s₁, action { s with depth := s.depth + 1 } = .error e s₁ ∧
        s' = { s₁ with depth := s₁.depth - 1 } := by
  unfold deeper
  cases action { s with depth := s.depth + 1 } with
  | ok b s₁ => simp
  | error e' s₁ =>
    constructor
    · intro h
      cases h
      exact ⟨s₁, rfl, rfl⟩
    · rintro ⟨s₂, h, rfl⟩
      cases h
      rfl

/-- A level is refused where there is no room. -/
theorem refuse_stuck (h : (refuse : TokenReader α) s = .error e s') {xs : List Lexeme}
    (hxs : xs ∈ L) : Stuck 0 L s e s' := by
  cases h
  unfold TokenCursor.tooDeep
  split <;> exact .here rfl (Nat.zero_le _) hxs

end Small

/-! ## Expressions -/

section Expressions

variable {inner : Nat → TokenReader Expr} {s s' : TokenCursor} {e : ParseError}

/-- A number can stand wherever an expression can. -/
theorem num_mem {c : Category} (hc : c.rank ≤ Category.atom.rank) :
    [.num 0] ∈ expressionWords c :=
  ⟨_, (Derives.num 0 .none).loosen hc⟩

/-- The reader fails where its expression can be completed. -/
def StuckInner (room : Nat) (inner : Nat → TokenReader Expr) : Prop :=
  ∀ least ≤ 6, ∀ {s s' : TokenCursor} {e : ParseError}, inner least s = .error e s' →
    Stuck room (expressionWords (.ofLeast least)) s e s'

theorem operand_stuck (hsound : Sound inner) (hinner : StuckInner room inner)
    (h : operand inner s = .error e s') : Stuck (room + 1) (expressionWords .un) s e s' := by
  unfold operand at h
  rcases bind_eq_error.1 h with hcurrent | ⟨t, s₁, ht, hk⟩
  · exact current_stuck hcurrent (num_mem (by decide))
  obtain ⟨rfl, r, hr⟩ := current_eq_ok.1 ht
  obtain ⟨lexeme, span⟩ := t
  have unexpected : (throw (.unexpectedToken ⟨lexeme, span⟩) : TokenReader Expr) s₁ =
      .error e s' → Stuck (room + 1) (expressionWords .un) s₁ e s' := by
    intro h
    cases h
    exact .here rfl (by rw [hr]; rfl) (num_mem (by decide))
  cases lexeme with
  | num n => cases hk
  | ident name => cases hk
  | op op =>
    cases op with
    | sub =>
      dsimp only at hk
      rw [bind_of_ok (pass_eq s₁)] at hk
      rcases bind_eq_error.1 hk with ha | ⟨a, s₂, -, hpure⟩
      · refine (hinner _ (by decide) ha).behind (.pass hr) (Nat.le_refl _) ?_
        rintro xs ⟨a, ha⟩
        exact ⟨_, .neg .none ha⟩
      · cases hpure
    | _ => exact unexpected hk
  | leftParen =>
    dsimp only at hk
    rw [bind_of_ok (pass_eq s₁)] at hk
    have close : ∀ xs ∈ expressionWords .expr,
        .leftParen :: xs ++ [.rightParen] ∈ expressionWords .un := by
      rintro xs ⟨a, ha⟩
      exact ⟨a, (Derives.paren ha).loosen (by decide)⟩
    rcases bind_eq_error.1 hk with ha | ⟨a, s₂, ha, hclose⟩
    · have hopen : Stuck (room + 1) {xs | xs ++ [.rightParen] ∈ expressionWords .un} s₁ e s' :=
        (hinner _ (by decide) ha).behind (.pass hr) (Nat.le_refl _) close
      exact hopen.before ⟨[.rightParen], fun xs hxs => hxs⟩
    · -- what stands in the parenthesis is balanced, so that it is the innermost open one
      obtain ⟨us, hus, hd, -⟩ := hsound _ (by decide) _ _ _ ha
      have hopen : ∀ stack, openParens stack (⟨.leftParen, span⟩ :: us) =
          ⟨.leftParen, span⟩ :: stack := fun stack => hd.balanced us rfl _
      have unmatched : (throw (.unmatchedLeftParen ⟨.leftParen, span⟩) : TokenReader Expr) s₂ =
          .error e s' → Stuck (room + 1) (expressionWords .un) s₁ e s' := by
        intro h
        cases h
        have hc := Consumes.cons hr hus
        refine ⟨_, _, [.rightParen], hc.rest, hc.read, fun stack => ?_, close _ ⟨a, hd⟩⟩
        rw [hopen]
        rfl
      rw [bind_of_ok (peek_eq s₂)] at hclose
      cases hr₂ : s₂.rest with
      | nil =>
        rw [hr₂] at hclose
        exact unmatched hclose
      | cons u r₂ =>
        obtain ⟨lexeme, close⟩ := u
        rw [hr₂] at hclose
        cases lexeme with
        | rightParen => cases hclose
        | _ => exact unmatched hclose
  | _ => exact unexpected hk

/-- The operator loop fails behind a left operand, which is complete, or inside a right one. -/
theorem operators_stuck (hsound : Sound inner) (hinner : StuckInner room inner) {least : Nat}
    {s₀ : TokenCursor} : ∀ (count : List Token) {s : TokenCursor} {lhs : Expr},
      LeftDerived least s₀ lhs s → operators inner least count lhs s = .error e s' →
      Stuck (room + 1) (expressionWords (.ofLeast least)) s₀ e s' := by
  intro count
  induction count with
  | nil => exact fun _ h => nomatch h
  | cons k count ih =>
    intro s lhs hlhs h
    by_cases hstop : Stops least s.rest
    · rw [operators_of_stops _ hstop] at h
      cases h
    obtain ⟨op, span, r, hr, hprec⟩ := exists_op_of_not_stops hstop
    rw [operators_of_op k count hr hprec] at h
    obtain ⟨ts, c, hts, hd, hc, hfit⟩ := id hlhs
    split at h
    · rename_i haccepts
      rcases bind_eq_error.1 h with hrhs | ⟨rhs, s₁, hrhs, hrest⟩
      · have htaken : Consumes s₀ (ts ++ [⟨.op op, span⟩]) s.pass := hts.trans (.pass hr)
        refine (hinner _ (by cases op <;> decide) hrhs).behind htaken (by simp) ?_
        rintro xs ⟨b, hb⟩
        have hbinary := hd.binary .none (Nat.lt_succ_iff.1 (hfit op span r hr))
          (exists_var_of_accepts haccepts) hb
        rw [List.map_append, List.append_assoc]
        exact ⟨_, hbinary.loosen (op.rank_ofLeast_le_category hprec)⟩
      · exact ih (hlhs.binary hsound hr hprec haccepts hrhs) hrest
    · cases h
      refine ⟨ts, s.rest, [], hts.rest, congrArg (· + 1) hts.read, by rw [hr]; rfl, lhs, ?_⟩
      rw [List.append_nil]
      exact hd.loosen hc

theorem expression_stuck (room : Nat) : StuckInner room (expression room) := by
  induction room with
  | zero =>
    intro least hleast s s' e h
    exact refuse_stuck h (num_mem (Nat.le_trans (Category.rank_ofLeast_le_un hleast) (by decide)))
  | succ room ih =>
    intro least hleast s s' e h
    have hsound := expression_sound room
    have hrank := Category.rank_ofLeast_le_un hleast
    unfold expression at h
    obtain ⟨s₂, hclimb, rfl⟩ := deeper_eq_error.1 h
    refine Stuck.ofDeeper ?_
    rcases bind_eq_error.1 hclimb with hlhs | ⟨lhs, s₁, hlhs, hops⟩
    · refine (operand_stuck hsound ih hlhs).mono ?_
      rintro xs ⟨a, ha⟩
      exact ⟨a, ha.loosen hrank⟩
    · obtain ⟨ts, c, hts, hd, hc, hfit⟩ := operand_sound hsound (operand_cases hlhs)
      rw [bind_of_ok (unread_eq s₁)] at hops
      exact operators_stuck hsound ih _ ⟨ts, c, hts, hd, Nat.le_trans hrank hc, hfit⟩ hops

theorem expression_completes (room : Nat) :
    Completes room (expressionWords .expr) (expression room Precedence.lowest) where
  taken h := by
    obtain ⟨ts, hts, hd, -⟩ := expression_sound room _ (by decide) _ _ _ h
    exact ⟨ts, hts, _, hd⟩
  stuck h := expression_stuck room _ (by decide) h
  nonempty := ⟨_, num_mem (by decide)⟩

end Expressions

/-! ## Statements -/

section Statements

variable {braces : TokenReader (List Stmt × Span)} {stmt : TokenReader Stmt}
  {s s' : TokenCursor} {e : ParseError}

theorem clause_completes (room : Nat) (terminator : Lexeme) :
    Completes room clauseWords (clause room terminator) where
  taken h := by
    obtain ⟨ts, hts, hd⟩ := clause_sound h
    exact ⟨ts, hts, _, hd⟩
  stuck {s s' e} h := by
    have present : (some <$> expression room Precedence.lowest) s = .error e s' →
        Stuck room clauseWords s e s' := by
      intro h
      rw [← bind_pure_comp] at h
      rcases bind_eq_error.1 h with he | ⟨a, s₁, -, hpure⟩
      · refine ((expression_completes room).stuck he).mono ?_
        rintro xs ⟨a, ha⟩
        exact ⟨_, .present ha⟩
      · cases hpure
    unfold clause at h
    rw [bind_of_ok (peek_eq s)] at h
    cases hr : s.rest with
    | nil =>
      rw [hr] at h
      exact present h
    | cons t r =>
      rw [hr] at h
      dsimp only [List.head?_cons] at h
      split at h
      · cases h
      · exact present h
  nonempty := ⟨[], _, .absent⟩

theorem condition_completes (room : Nat) : Completes room
    ({[.leftParen]} * (expressionWords .expr * ({[.rightParen]} * 1))) (condition room) :=
  (expect_completes _).bind fun _ => (expression_completes room).bind fun e =>
    (expect_completes _).bind fun _ => .pure e

/-- What stands behind the keyword of a statement, in parentheses and braces. -/
theorem conditional_mem {xs : List Lexeme}
    (h : xs ∈ ({[.leftParen]} * (expressionWords .expr * ({[.rightParen]} * 1))) *
      (blockWords * 1)) :
    ∃ ts bs cond body, xs = .leftParen :: ts ++ .rightParen :: bs ∧ Derives .expr ts cond ∧
      Block bs body := by
  obtain ⟨_, ⟨_, rfl, _, ⟨ts, ⟨cond, hcond⟩, _, ⟨_, rfl, _, rfl, rfl⟩, rfl⟩, rfl⟩, _,
    ⟨bs, ⟨body, hbody⟩, _, rfl, rfl⟩, rfl⟩ := h
  exact ⟨ts, bs, cond, body, by simp, hcond, hbody⟩

theorem emptyBlock_mem : [.leftBrace, .rightBrace] ∈ blockWords :=
  ⟨[], Block.braces .nil⟩

/-- What follows the keyword fails where the statement can be completed. -/
theorem behind_word {α : Type} {read : TokenReader α} {word : Token} {r : List Token}
    {L : Language Lexeme} (hr : s.rest = word :: r) (hread : Completes room L read)
    (h : read s.pass = .error e s') (hL : ∀ xs ∈ L, word.lexeme :: xs ∈ statementWords) :
    Stuck room statementWords s e s' :=
  (hread.stuck h).behind (.pass hr) (Nat.zero_le _) hL

theorem statement_stuck (hbraces : Completes room blockWords braces)
    (h : statement room braces s = .error e s') : Stuck room statementWords s e s' := by
  unfold statement at h
  rcases bind_eq_error.1 h with hcurrent | ⟨t, s₁, ht, hk⟩
  · exact current_stuck hcurrent ⟨_, Statement.block .none (.braces .nil)⟩
  obtain ⟨rfl, r, hr⟩ := current_eq_ok.1 ht
  have simple : (do
      let e ← expression room Precedence.lowest
      let semicolon ← expect .semicolon
      return Stmt.expr e (t.span.join semicolon.span)) s₁ = .error e s' →
      Stuck room statementWords s₁ e s' := by
    intro h
    have hread := (expression_completes room).bind fun a =>
      (expect_completes .semicolon).bind fun c =>
        Completes.pure (Stmt.expr a (t.span.join c.span))
    refine (hread.stuck h).mono ?_
    rintro _ ⟨ts, ⟨a, ha⟩, _, ⟨_, rfl, _, rfl, rfl⟩, rfl⟩
    exact ⟨_, .expr .none ha⟩
  obtain ⟨lexeme, span⟩ := t
  cases lexeme with
  | ifWord =>
    refine behind_word hr ((condition_completes room).bind fun cond =>
      hbraces.bind fun b => Completes.pure (Stmt.ifThen cond b.1 (span.join b.2))) hk ?_
    intro xs hxs
    obtain ⟨ts, bs, cond, body, rfl, hcond, hbody⟩ := conditional_mem hxs
    exact ⟨_, .ifThen .none hcond hbody⟩
  | whileWord =>
    refine behind_word hr ((condition_completes room).bind fun cond =>
      hbraces.bind fun b => Completes.pure (Stmt.whileLoop cond b.1 (span.join b.2))) hk ?_
    intro xs hxs
    obtain ⟨ts, bs, cond, body, rfl, hcond, hbody⟩ := conditional_mem hxs
    exact ⟨_, .whileLoop .none hcond hbody⟩
  | forWord =>
    refine behind_word hr ((expect_completes .leftParen).bind fun _ =>
      (clause_completes room .semicolon).bind fun init =>
      (expect_completes .semicolon).bind fun _ =>
      (clause_completes room .semicolon).bind fun cond =>
      (expect_completes .semicolon).bind fun _ =>
      (clause_completes room .rightParen).bind fun update =>
      (expect_completes .rightParen).bind fun _ =>
      hbraces.bind fun b => Completes.pure (Stmt.forLoop init cond update b.1 (span.join b.2))) hk ?_
    rintro _ ⟨_, rfl, _, ⟨xs, ⟨init, hi⟩, _, ⟨_, rfl, _, ⟨ys, ⟨cond, hc⟩, _, ⟨_, rfl, _,
      ⟨zs, ⟨update, hu⟩, _, ⟨_, rfl, _, ⟨bs, ⟨body, hb⟩, _, rfl, rfl⟩, rfl⟩, rfl⟩, rfl⟩, rfl⟩, rfl⟩,
      rfl⟩, rfl⟩
    exact ⟨.forLoop init cond update body .none, by simpa using Statement.forLoop .none hi hc hu hb⟩
  | leftBrace =>
    have hread := hbraces.bind fun b => Completes.pure (Stmt.block b.1 b.2)
    refine (hread.stuck hk).mono ?_
    rintro _ ⟨bs, ⟨body, hb⟩, _, rfl, rfl⟩
    exact ⟨.block body .none, by simpa using Statement.block .none hb⟩
  | _ => exact simple hk

/-- The reader takes derived statements, and fails where they can be completed. -/
structure CompletesStatement (room : Nat) (stmt : TokenReader Stmt) : Prop where
  taken {s s' : TokenCursor} {a : Stmt} : stmt s = .ok a s' →
    ∃ us, Consumes s us s' ∧ Statement (us.map Token.lexeme) a
  stuck {s s' : TokenCursor} {e : ParseError} : stmt s = .error e s' →
    Stuck room statementWords s e s'

/-- A statement, or what begins one, before which the loop has come to an error. -/
theorem statement_then_stuck (hstmt : CompletesStatement room stmt)
    {next : Stmt → TokenReader (List Stmt)}
    (hnext : ∀ a s₁, next a s₁ = .error e s' → Stuck room programWords s₁ e s')
    (h : (stmt >>= next) s = .error e s') : Stuck room programWords s e s' := by
  rcases bind_eq_error.1 h with hfirst | ⟨a, s₁, ha, hrest⟩
  · refine (hstmt.stuck hfirst).mono ?_
    rintro xs ⟨a, ha⟩
    have hone := Statements.cons ha .nil
    rw [List.append_nil] at hone
    exact ⟨_, hone⟩
  · obtain ⟨us, hus, hd⟩ := hstmt.taken ha
    refine (hnext a s₁ hrest).behind hus (Nat.zero_le _) ?_
    rintro xs ⟨p, hp⟩
    exact ⟨_, .cons hd hp⟩

/-- A loop over statements fails at one of them or behind the last. -/
theorem LoopsBy.stuck {finish : Option Token → Option (List Stmt → TokenReader (List Stmt))}
    {loop : List Token → List Stmt → TokenReader (List Stmt)} (hloop : LoopsBy finish stmt loop)
    (hfinish : ∀ s last, finish s.rest.head? = some last → ∀ done, last done s = .error e s' →
      Stuck room programWords s e s') (hstmt : CompletesStatement room stmt) :
    ∀ (count : List Token) {s : TokenCursor} {done : List Stmt}, loop count done s = .error e s' →
      Stuck room programWords s e s' := by
  intro count
  induction count with
  | nil =>
    intro s done h
    cases hnext : finish s.rest.head? with
    | some last => exact hfinish s last hnext done (hloop.ends _ _ hnext ▸ h)
    | none =>
      rw [hloop.starves _ hnext] at h
      cases h
  | cons k count ih =>
    intro s done h
    cases hnext : finish s.rest.head? with
    | some last => exact hfinish s last hnext done (hloop.ends _ _ hnext ▸ h)
    | none =>
      rw [hloop.goes k count done hnext] at h
      exact statement_then_stuck hstmt (fun a s₁ => ih) h

theorem finishBlock_stuck (s : TokenCursor) (last : List Stmt → TokenReader (List Stmt))
    (hnext : finishBlock s.rest.head? = some last) (done : List Stmt)
    (h : last done s = .error e s') : Stuck room programWords s e s' := by
  cases hr : s.rest with
  | nil =>
    rw [hr] at hnext
    cases hnext
    cases h
    exact .here rfl hr ⟨[], .nil⟩
  | cons t r =>
    rw [hr, List.head?_cons, finishBlock] at hnext
    split at hnext
    · cases hnext
      cases h
    · cases hnext

theorem finishProgram_stuck (s : TokenCursor) (last : List Stmt → TokenReader (List Stmt))
    (hnext : finishProgram s.rest.head? = some last) (done : List Stmt)
    (h : last done s = .error e s') : Stuck room programWords s e s' := by
  cases hr : s.rest with
  | nil =>
    rw [hr] at hnext
    cases hnext
    cases h
  | cons t r =>
    rw [hr] at hnext
    cases hnext

/-- Where there is no brace, an empty block could stand. -/
theorem leftBrace_stuck (h : expect .leftBrace s = .error e s') :
    Stuck room blockWords s e s' := by
  refine ((expect_completes _).stuck h).before ⟨[.rightBrace], ?_⟩
  rintro _ rfl
  exact emptyBlock_mem

/-- A block without room, which fails at its brace or behind it. -/
theorem block_zero_stuck (h : block 0 s = .error e s') : Stuck 0 blockWords s e s' := by
  unfold block at h
  rcases bind_eq_error.1 h with ho | ⟨o, s₁, ho, hrefuse⟩
  · exact leftBrace_stuck ho
  · obtain ⟨hc, hol⟩ := expect_sound ho
    have hclose : Stuck 0 {[.rightBrace]} s₁ e s' := refuse_stuck hrefuse (Set.mem_singleton _)
    refine hclose.behind hc (Nat.zero_le _) ?_
    rintro _ rfl
    rw [hol]
    exact emptyBlock_mem

theorem block_succ_stuck (hstmt : CompletesStatement room (statement room (block room)))
    (h : block (room + 1) s = .error e s') : Stuck (room + 1) blockWords s e s' := by
  unfold block at h
  rcases bind_eq_error.1 h with ho | ⟨o, s₁, ho, hinside⟩
  · exact leftBrace_stuck ho
  obtain ⟨hc, hol⟩ := expect_sound ho
  rcases bind_eq_error.1 hinside with hbody | ⟨body, s₂, hbody, hclose⟩
  · obtain ⟨s₂, hloop, rfl⟩ := deeper_eq_error.1 hbody
    rw [bind_of_ok (unread_eq _)] at hloop
    have hopen : Stuck (room + 1) {xs | xs ++ [.rightBrace] ∈ blockWords} s e
        { s₂ with depth := s₂.depth - 1 } := by
      refine ((statements_loopsBy _).stuck finishBlock_stuck hstmt _ hloop).ofDeeper.behind hc
        (Nat.le_refl _) ?_
      rintro xs ⟨p, hp⟩
      rw [hol]
      exact ⟨p, .braces hp⟩
    exact hopen.before ⟨[.rightBrace], fun xs hxs => hxs⟩
  · -- the statements ended in front of a right brace
    obtain ⟨s₃, hloop, rfl⟩ := deeper_eq_ok.1 hbody
    rw [bind_of_ok (unread_eq _)] at hloop
    obtain ⟨ts, body', -, -, -, t, r, hr, -⟩ :=
      statements_sound (fun _ _ _ => hstmt.taken) _ (Nat.le_refl _) hloop
    rcases bind_eq_error.1 hclose with hcurrent | ⟨c, s₄, hcurrent, hk⟩
    · obtain ⟨hnil, -⟩ := current_eq_error hcurrent
      rw [show s₃.rest = [] from hnil] at hr
      cases hr
    · cases hk

end Statements

theorem block_completes (room : Nat) : Completes room blockWords (block room) := by
  have taken : ∀ {room : Nat} {s s' : TokenCursor} {b : List Stmt × Span},
      block room s = .ok b s' → ∃ us, Consumes s us s' ∧ us.map Token.lexeme ∈ blockWords := by
    intro room s s' b h
    obtain ⟨ts, hts, hd⟩ := block_sound room _ _ _ _ h
    exact ⟨ts, hts, _, hd⟩
  induction room with
  | zero => exact ⟨taken, block_zero_stuck, _, emptyBlock_mem⟩
  | succ room ih =>
    have hstmt : CompletesStatement room (statement room (block room)) :=
      ⟨statement_sound (block_sound room), statement_stuck ih⟩
    exact ⟨taken, block_succ_stuck hstmt, _, emptyBlock_mem⟩

theorem statement_completes (room : Nat) :
    CompletesStatement room (statement room (block room)) where
  taken h := statement_sound (block_sound room) h
  stuck h := statement_stuck (block_completes room) h

/-- A program that cannot be read fails behind tokens that begin one. -/
theorem program_stuck {ts : List Token} {limit : Int} {e : ParseError} {s : TokenCursor}
    (h : program (.start ts limit) = .error e s) :
    Stuck limit.toNat programWords (.start ts limit) e s := by
  rw [program_start] at h
  exact (statementsToEnd_loopsBy _).stuck finishProgram_stuck (statement_completes _) _ h

end TokenReader

end Imp32
