import Imp32.Program.Parser
import Imp32.Proofs.Actions

/-!
# What the readers of tokens do

A reader that succeeds takes the next tokens and leaves the rest of the cursor alone: `Consumes`.
The lemmas `…_eq_ok` say of each small reader when it succeeds and with what, so that a reader put
together from them is taken apart one bind at a time (`bind_eq_ok`).

What holds of all that readers are put together from holds of the readers of programs, whatever it
is: `ReaderRule` goes over the grammar once, and each such property is left with its small readers.
One is that a reader fails at one of the tokens, or at the end of all, and never for want of a token
to point at while there is a last one (`PointsAt`).
-/

namespace Imp32

/-! ## Taking tokens -/

/-- The second cursor is the first one behind these tokens. -/
structure Consumes (s : TokenCursor) (ts : List Token) (s' : TokenCursor) : Prop where
  rest : s.rest = ts ++ s'.rest
  read : s'.read = s.read + ts.length
  last : s'.last = s.last
  depth : s'.depth = s.depth
  limit : s'.limit = s.limit

namespace Consumes

variable {s s' s'' : TokenCursor} {ts us : List Token}

theorem refl (s : TokenCursor) : Consumes s [] s := ⟨rfl, rfl, rfl, rfl, rfl⟩

theorem trans (h : Consumes s ts s') (h' : Consumes s' us s'') : Consumes s (ts ++ us) s'' where
  rest := by rw [h.rest, h'.rest, List.append_assoc]
  read := by rw [h'.read, h.read, List.length_append, Nat.add_assoc]
  last := h'.last.trans h.last
  depth := h'.depth.trans h.depth
  limit := h'.limit.trans h.limit

/-- Passing a token takes it. -/
theorem pass {t : Token} {r : List Token} (h : s.rest = t :: r) : Consumes s [t] s.pass where
  rest := by simp [TokenCursor.pass, h]
  read := rfl
  last := rfl
  depth := rfl
  limit := rfl

/-- Passing a token takes it in front of what is taken next. -/
theorem cons {t : Token} {r : List Token} (h : s.rest = t :: r) (h' : Consumes s.pass ts s') :
    Consumes s (t :: ts) s' :=
  (pass h).trans h'

theorem length_le (h : Consumes s ts s') : s'.rest.length ≤ s.rest.length := by
  rw [h.rest, List.length_append]
  omega

/-- What is left is what stands behind the tokens that were taken. -/
theorem rest_eq {r : List Token} (h : Consumes s ts s') (hr : s.rest = ts ++ r) : s'.rest = r :=
  List.append_cancel_left (h.rest.symm.trans hr)

end Consumes

namespace TokenCursor

@[simp] theorem rest_pass (s : TokenCursor) : s.pass.rest = s.rest.tail := rfl

end TokenCursor

namespace TokenReader

variable {α β : Type} {s s' : TokenCursor}

/-! ## When small readers succeed -/

@[simp] theorem peek_eq (s : TokenCursor) : peek s = .ok s.rest.head? s := rfl

@[simp] theorem unread_eq (s : TokenCursor) : unread s = .ok s.rest s := rfl

@[simp] theorem pass_eq (s : TokenCursor) : pass s = .ok () s.pass := rfl

theorem current_of_rest {t : Token} {r : List Token} (h : s.rest = t :: r) :
    current s = .ok t s := by
  unfold current
  rw [bind_of_ok (peek_eq s), h]
  rfl

theorem current_eq_ok {t : Token} :
    current s = .ok t s' ↔ s' = s ∧ ∃ r, s.rest = t :: r := by
  constructor
  · intro h
    cases hr : s.rest with
    | nil =>
      unfold current at h
      rw [bind_of_ok (peek_eq s), hr] at h
      cases h
    | cons u r =>
      rw [current_of_rest hr] at h
      cases h
      exact ⟨rfl, r, rfl⟩
  · rintro ⟨rfl, r, hr⟩
    exact current_of_rest hr

theorem expect_of_rest {t : Token} {r : List Token} {lexeme : Lexeme} (h : s.rest = t :: r)
    (ht : t.lexeme = lexeme) : expect lexeme s = .ok t s.pass := by
  unfold expect
  rw [bind_of_ok (current_of_rest h), if_pos ht, bind_of_ok (pass_eq s)]
  rfl

theorem expect_eq_ok {t : Token} {lexeme : Lexeme} :
    expect lexeme s = .ok t s' ↔ s' = s.pass ∧ t.lexeme = lexeme ∧ ∃ r, s.rest = t :: r := by
  constructor
  · intro h
    unfold expect at h
    obtain ⟨u, s₁, hu, hk⟩ := bind_eq_ok.1 h
    obtain ⟨rfl, r, hr⟩ := current_eq_ok.1 hu
    split at hk
    · rename_i ht
      rw [bind_of_ok (pass_eq s₁), pure_eq_ok] at hk
      obtain ⟨rfl, rfl⟩ := hk
      exact ⟨rfl, ht, r, hr⟩
    · cases hk
  · rintro ⟨rfl, ht, r, hr⟩
    exact expect_of_rest hr ht

/-- One level deeper, the level counts while the action runs. -/
theorem deeper_eq_ok {action : TokenReader α} {a : α} :
    deeper action s = .ok a s' ↔
      ∃ s₁, action { s with depth := s.depth + 1 } = .ok a s₁ ∧
        s' = { s₁ with depth := s₁.depth - 1 } := by
  unfold deeper
  cases action { s with depth := s.depth + 1 } with
  | ok b s₁ =>
    constructor
    · intro h
      cases h
      exact ⟨s₁, rfl, rfl⟩
    · rintro ⟨s₂, h, rfl⟩
      cases h
      rfl
  | error e s₁ => simp

end TokenReader

theorem Consumes.deeper {s s₁ : TokenCursor} {ts : List Token}
    (h : Consumes { s with depth := s.depth + 1 } ts s₁) :
    Consumes s ts { s₁ with depth := s₁.depth - 1 } where
  rest := h.rest
  read := h.read
  last := h.last
  depth := by simp [h.depth]
  limit := h.limit

/-! ## What holds of every reader -/

/-- The errors that a reader throws at tokens which it has seen, or at the end of them. -/
inductive ParseError.Thrown (seen : Token → Prop) : ParseError → Prop
  | unexpectedEnd : Thrown seen .unexpectedEnd
  | unmatchedLeftParen {t : Token} : seen t → Thrown seen (.unmatchedLeftParen t)
  | unexpectedToken {t : Token} : seen t → Thrown seen (.unexpectedToken t)
  | invalidAssignmentTarget {t : Token} : seen t → Thrown seen (.invalidAssignmentTarget t)

/-- A property of readers at a cursor that is kept by all that readers are put together from. What
is read is `seen`, and a token is passed only where there is one. -/
structure ReaderRule (Holds : ∀ {α : Type}, TokenCursor → TokenReader α → Prop)
    (seen : Token → Prop) : Prop where
  pure {α : Type} (a : α) (s : TokenCursor) : Holds s (pure a : TokenReader α)
  throw {α : Type} {e : ParseError} (he : e.Thrown seen) (s : TokenCursor) :
    Holds s (throw e : TokenReader α)
  bind {α β : Type} {x : TokenReader α} {f : α → TokenReader β} {s : TokenCursor} :
    Holds s x → (∀ a s', Holds s' (f a)) → Holds s (x >>= f)
  peek {β : Type} {f : Option Token → TokenReader β} {s : TokenCursor} :
    Holds s (f none) → (∀ t r, s.rest = t :: r → seen t → Holds s (f (some t))) →
      Holds s (TokenReader.peek >>= f)
  get (s : TokenCursor) : Holds s (get : TokenReader TokenCursor)
  pass {s : TokenCursor} {t : Token} {r : List Token} : s.rest = t :: r → Holds s TokenReader.pass
  refuse {α : Type} (s : TokenCursor) : Holds s (TokenReader.refuse : TokenReader α)
  deeper {α : Type} {x : TokenReader α} {s : TokenCursor} :
    (∀ s', Holds s' x) → Holds s (TokenReader.deeper x)

namespace ReaderRule

open TokenReader

variable {Holds : ∀ {α : Type}, TokenCursor → TokenReader α → Prop} {seen : Token → Prop}
  {α β : Type} {s : TokenCursor}

section

variable (rule : ReaderRule Holds seen)
include rule

theorem passing {t : Token} {r : List Token} {x : TokenReader β} (h : s.rest = t :: r)
    (hx : ∀ s', Holds s' x) : Holds s (TokenReader.pass >>= fun _ => x) :=
  rule.bind (rule.pass h) fun _ => hx

theorem unread (s : TokenCursor) : Holds s TokenReader.unread :=
  rule.bind (rule.get s) fun _ => rule.pure _

theorem current {f : Token → TokenReader β}
    (hf : ∀ t r, s.rest = t :: r → seen t → Holds s (f t)) :
    Holds s (TokenReader.current >>= f) := by
  unfold TokenReader.current
  rw [bind_assoc]
  exact rule.peek (rule.throw .unexpectedEnd s) hf

theorem expect (lexeme : Lexeme) (s : TokenCursor) : Holds s (TokenReader.expect lexeme) :=
  rule.current fun t r hr ht => by
    show Holds s (ite _ _ _)
    split
    · exact rule.passing hr (rule.pure t)
    · exact rule.throw (.unexpectedToken ht) s

variable {inner : Nat → TokenReader Expr} {stmt : TokenReader Stmt}
  {braces : TokenReader (List Stmt × Span)}

theorem operand (h : ∀ least s, Holds s (inner least)) (s : TokenCursor) :
    Holds s (TokenReader.operand inner) := by
  refine rule.current fun t r hr ht => ?_
  obtain ⟨lexeme, span⟩ := t
  cases lexeme with
  | num n => exact rule.passing hr (rule.pure _)
  | ident name => exact rule.passing hr (rule.pure _)
  | op op =>
    cases op with
    | sub => exact rule.passing hr fun s => rule.bind (h _ s) fun _ => rule.pure _
    | _ => exact rule.throw (.unexpectedToken ht) s
  | leftParen =>
    have hopen := rule.throw (α := Expr) (.unmatchedLeftParen ht)
    refine rule.passing hr fun s => rule.bind (h _ s) fun e s => rule.peek (hopen s) ?_
    rintro ⟨lexeme, span⟩ r hr -
    cases lexeme with
    | rightParen => exact rule.passing hr (rule.pure e)
    | _ => exact hopen s
  | _ => exact rule.throw (.unexpectedToken ht) s

theorem operators (h : ∀ least s, Holds s (inner least)) {least : Nat} (count : List Token) :
    ∀ lhs s, Holds s (TokenReader.operators inner least count lhs) := by
  induction count with
  | nil => exact fun lhs s => rule.pure lhs s
  | cons k count ih =>
    intro lhs s
    unfold TokenReader.operators
    refine rule.peek (rule.pure lhs s) ?_
    rintro ⟨lexeme, span⟩ r hr ht
    cases lexeme with
    | op op =>
      show Holds s (ite _ _ _)
      split
      · exact rule.pure lhs s
      · refine rule.passing hr fun s => ?_
        show Holds s (ite _ _ _)
        split
        · exact rule.throw (.invalidAssignmentTarget ht) s
        · exact rule.bind (h _ s) fun rhs => ih _
    | _ => exact rule.pure lhs s

theorem expression (room least : Nat) : ∀ s, Holds s (TokenReader.expression room least) := by
  induction room generalizing least with
  | zero => exact fun s => rule.refuse s
  | succ room ih =>
    exact fun s => rule.deeper fun s => rule.bind (rule.operand ih s) fun lhs s =>
      rule.bind (rule.unread s) fun count => rule.operators ih count lhs

theorem clause (room : Nat) (terminator : Lexeme) (s : TokenCursor) :
    Holds s (TokenReader.clause room terminator) := by
  have hsome : Holds s (some <$> TokenReader.expression room Precedence.lowest) := by
    rw [← bind_pure_comp]
    exact rule.bind (rule.expression room _ s) fun e => rule.pure _
  refine rule.peek hsome fun t r _ _ => ?_
  show Holds s (ite _ _ _)
  split
  · exact rule.pure none s
  · exact hsome

theorem condition (room : Nat) (s : TokenCursor) : Holds s (TokenReader.condition room) :=
  rule.bind (rule.expect _ s) fun _ s => rule.bind (rule.expression room _ s) fun e s =>
    rule.bind (rule.expect _ s) fun _ => rule.pure e

theorem statement (room : Nat) (h : ∀ s, Holds s braces) (s : TokenCursor) :
    Holds s (TokenReader.statement room braces) := by
  refine rule.current fun t r hr _ => ?_
  split
  · exact rule.passing hr fun s => rule.bind (rule.condition room s) fun _ s =>
      rule.bind (h s) fun _ => rule.pure _
  · exact rule.passing hr fun s => rule.bind (rule.condition room s) fun _ s =>
      rule.bind (h s) fun _ => rule.pure _
  · exact rule.passing hr fun s => rule.bind (rule.expect _ s) fun _ s =>
      rule.bind (rule.clause room _ s) fun _ s => rule.bind (rule.expect _ s) fun _ s =>
      rule.bind (rule.clause room _ s) fun _ s => rule.bind (rule.expect _ s) fun _ s =>
      rule.bind (rule.clause room _ s) fun _ s => rule.bind (rule.expect _ s) fun _ s =>
      rule.bind (h s) fun _ => rule.pure _
  · exact rule.bind (h s) fun _ => rule.pure _
  · exact rule.bind (rule.expression room _ s) fun _ s => rule.bind (rule.expect _ s) fun _ =>
      rule.pure _

theorem statements (h : ∀ s, Holds s stmt) (count : List Token) :
    ∀ done s, Holds s (TokenReader.statements stmt count done) := by
  induction count with
  | nil =>
    intro done s
    unfold TokenReader.statements
    refine rule.current fun t r _ _ => ?_
    show Holds s (ite _ _ _)
    split
    · exact rule.pure _ s
    · exact rule.pure _ s
  | cons k count ih =>
    intro done s
    unfold TokenReader.statements
    refine rule.current fun t r _ _ => ?_
    show Holds s (ite _ _ _)
    split
    · exact rule.pure _ s
    · exact rule.bind (h s) fun a => ih _

theorem block (room : Nat) : ∀ s, Holds s (TokenReader.block room) := by
  induction room with
  | zero => exact fun s => rule.bind (rule.expect _ s) fun _ => rule.refuse
  | succ room ih =>
    intro s
    have hbody : ∀ s, Holds s (TokenReader.unread >>= fun count =>
        TokenReader.statements (TokenReader.statement room (TokenReader.block room)) count []) :=
      fun s => rule.bind (rule.unread s) fun count =>
        rule.statements (rule.statement room ih) count []
    exact rule.bind (rule.expect _ s) fun _ s => rule.bind (rule.deeper hbody) fun _ s =>
      rule.current fun t r hr _ => rule.passing hr (rule.pure _)

theorem statementsToEnd (h : ∀ s, Holds s stmt) (count : List Token) :
    ∀ done s, Holds s (TokenReader.statementsToEnd stmt count done) := by
  induction count with
  | nil =>
    intro done s
    unfold TokenReader.statementsToEnd
    exact rule.peek (rule.pure _ s) fun t r _ _ => rule.pure _ s
  | cons k count ih =>
    intro done s
    unfold TokenReader.statementsToEnd
    exact rule.peek (rule.pure _ s) fun t r _ _ => rule.bind (h s) fun a => ih _

theorem program (s : TokenCursor) : Holds s TokenReader.program :=
  rule.bind (rule.get s) fun _ s => rule.bind (rule.unread s) fun count =>
    rule.statementsToEnd (rule.statement _ (rule.block _)) count []

theorem wholeExpression (s : TokenCursor) : Holds s TokenReader.wholeExpression :=
  rule.bind (rule.get s) fun _ s => rule.bind (rule.expression _ _ s) fun e s =>
    rule.peek (rule.pure e s) fun _ _ _ ht => rule.throw (.unexpectedToken ht) s

end

end ReaderRule

/-! ## Tokens to point at -/

/-- The tokens of the cursor are among these, and one of these is the last. -/
structure TokenCursor.Among (ts : List Token) (s : TokenCursor) : Prop where
  rest : s.rest ⊆ ts
  last : ∃ t ∈ ts, s.last = some t

/-- The error is shown as a fault, at one of the tokens if it has a place. -/
def ParseError.ShownIn (ts : List Token) (e : ParseError) : Prop :=
  ∃ fault, e.fault? = some fault ∧ ∀ span ∈ fault.span, ∃ t ∈ ts, t.span = span

theorem ParseError.ShownIn.at_token {ts : List Token} {t : Token} {e : ParseError} {fault : Fault}
    (he : e.fault? = some fault) (hspan : fault.span = some t.span) (ht : t ∈ ts) : e.ShownIn ts :=
  ⟨fault, he, fun _ h => ⟨t, ht, Option.some.inj (hspan.symm.trans h)⟩⟩

theorem ParseError.ShownIn.nowhere {ts : List Token} : ParseError.unexpectedEnd.ShownIn ts :=
  ⟨_, rfl, nofun⟩

theorem ParseError.ShownIn.isSome {ts : List Token} {e : ParseError} (h : e.ShownIn ts) :
    e.fault?.isSome := by
  obtain ⟨fault, hfault, -⟩ := h
  rw [hfault]
  rfl

theorem ParseError.Thrown.shownIn {ts : List Token} {e : ParseError} (h : e.Thrown (· ∈ ts)) :
    e.ShownIn ts := by
  cases h with
  | unexpectedEnd => exact .nowhere
  | unmatchedLeftParen ht => exact .at_token rfl rfl ht
  | unexpectedToken ht => exact .at_token rfl rfl ht
  | invalidAssignmentTarget ht => exact .at_token rfl rfl ht

theorem TokenCursor.Among.tooDeep {ts : List Token} {s : TokenCursor} (h : s.Among ts) :
    s.tooDeep.ShownIn ts := by
  obtain ⟨l, hl, hlast⟩ := h.last
  unfold TokenCursor.tooDeep
  cases hr : s.rest with
  | nil =>
    rw [hlast]
    exact .at_token rfl rfl hl
  | cons t r => exact .at_token rfl rfl (h.rest (hr ▸ List.mem_cons_self))

/-- If this cursor is among the tokens, the reader comes to another one that is, or fails with an
error that is shown at one of them. -/
def PointsAt {α : Type} (ts : List Token) (s : TokenCursor) (action : TokenReader α) : Prop :=
  s.Among ts → match action s with
    | .ok _ s' => s'.Among ts
    | .error e _ => e.ShownIn ts

theorem pointsAt_rule (ts : List Token) : ReaderRule (PointsAt ts) (· ∈ ts) where
  pure _ _ h := h
  throw he _ _ := he.shownIn
  bind {α β x f s} hx hf hs := by
    have h := hx hs
    cases hxs : x s with
    | ok a s' =>
      rw [hxs] at h
      rw [bind_of_ok hxs]
      exact hf a s' h
    | error e s' =>
      rw [hxs] at h
      rw [bind_of_error hxs]
      exact h
  peek {β f s} hnone hsome hs := by
    rw [bind_of_ok (TokenReader.peek_eq s)]
    cases hr : s.rest with
    | nil => exact hnone hs
    | cons t r => exact hsome t r hr (hs.rest (hr ▸ List.mem_cons_self)) hs
  get _ h := h
  pass _ h := ⟨fun _ ht => h.rest (List.mem_of_mem_tail ht), h.last⟩
  refuse _ h := h.tooDeep
  deeper {α x s} hx hs := by
    have h := hx { s with depth := s.depth + 1 } ⟨hs.rest, hs.last⟩
    unfold TokenReader.deeper
    cases ha : x { s with depth := s.depth + 1 } with
    | ok a s' =>
      rw [ha] at h
      exact ⟨h.rest, h.last⟩
    | error e s' =>
      rw [ha] at h
      exact h

theorem PointsAt.program {ts : List Token} {s : TokenCursor} :
    PointsAt ts s TokenReader.program :=
  (pointsAt_rule ts).program s

theorem PointsAt.wholeExpression {ts : List Token} {s : TokenCursor} :
    PointsAt ts s TokenReader.wholeExpression :=
  (pointsAt_rule ts).wholeExpression s

/-- From tokens of which one is the last, a reader fails at one of them. -/
theorem readTokens_error_shown {α : Type} {action : TokenReader α} {ts : List Token} {limit : Int}
    {e : ParseError} (hpoints : PointsAt ts (.start ts limit) action) (hne : ts ≠ [])
    (h : readTokens action ts limit = .error e) : e.ShownIn ts := by
  have hlast := List.getLast?_eq_some_getLast hne
  have hstart := hpoints ⟨List.Subset.refl ts, _, List.mem_of_getLast? hlast, hlast⟩
  unfold readTokens at h
  cases hread : action (.start ts limit) with
  | ok a s =>
    rw [hread] at h
    cases h
  | error e' s =>
    rw [hread] at h hstart
    cases h
    exact hstart

/-- Tokens that are read as no program fail with an error that is shown at one of them. -/
theorem ofTokens_error_shown {ts : List Token} {limit : Int} {e : ParseError}
    (h : Program.ofTokens ts limit = .error e) : e.ShownIn ts := by
  refine readTokens_error_shown .program ?_ h
  rintro rfl
  have hread : TokenReader.program (.start [] limit) = .ok [] (.start [] limit) := by
    show TokenReader.statementsToEnd _ [] [] _ = _
    unfold TokenReader.statementsToEnd
    rfl
  unfold Program.ofTokens readTokens at h
  rw [hread] at h
  cases h

theorem ofTokens_error_isSome {ts : List Token} {limit : Int} {e : ParseError}
    (h : Program.ofTokens ts limit = .error e) : e.fault?.isSome :=
  (ofTokens_error_shown h).isSome

end Imp32
