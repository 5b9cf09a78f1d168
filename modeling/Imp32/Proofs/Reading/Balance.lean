import Imp32.Proofs.Reading.Lookahead

/-!
# The level that is counted

A reader takes tokens from the front and leaves the level as it was, whether it succeeds or fails,
but for one failure: that to enter a level leaves one level counted, and only one, however deep it
comes up (`BalancedAt`). What carries this is that the levels around it are left again on the way
out (`Moves.deeper`). One cursor on which programs and expressions are read again and again has
therefore counted the failures at the limit (`calls_balanced`).
-/

namespace Imp32

instance (e : ParseError) : Decidable e.IsTooDeep :=
  match e with
  | .nestingTooDeep _ _ | .nestingTooDeepAtNothing => .isTrue trivial
  | .unmatchedLeftParen _ | .unexpectedToken _ | .invalidAssignmentTarget _ | .unexpectedEnd =>
    .isFalse id

/-- The number of levels that stay counted behind an error. -/
def ParseError.leaked (e : ParseError) : Nat :=
  if e.IsTooDeep then 1 else 0

/-- The second cursor is the first one behind some tokens, with so many more levels counted. -/
structure Moves (s : TokenCursor) (levels : Nat) (s' : TokenCursor) : Prop where
  rest : ∃ ts, s.rest = ts ++ s'.rest ∧ s'.read = s.read + ts.length
  last : s'.last = s.last
  depth : s'.depth = s.depth + levels
  limit : s'.limit = s.limit

namespace Moves

variable {s s' s'' : TokenCursor} {levels levels' : Nat}

theorem refl (s : TokenCursor) : Moves s 0 s := ⟨⟨[], rfl, rfl⟩, rfl, rfl, rfl⟩

theorem trans (h : Moves s levels s') (h' : Moves s' levels' s'') :
    Moves s (levels + levels') s'' where
  rest := by
    obtain ⟨ts, hts, hread⟩ := h.rest
    obtain ⟨us, hus, hread'⟩ := h'.rest
    exact ⟨ts ++ us, by rw [hts, hus, List.append_assoc], by
      rw [hread', hread, List.length_append, Nat.add_assoc]⟩
  last := h'.last.trans h.last
  depth := by rw [h'.depth, h.depth, Nat.add_assoc]
  limit := h'.limit.trans h.limit

theorem pass {t : Token} {r : List Token} (h : s.rest = t :: r) : Moves s 0 s.pass where
  rest := ⟨[t], by simp [TokenCursor.pass, h], rfl⟩
  last := rfl
  depth := rfl
  limit := rfl

/-- The level that was entered is left again. -/
theorem deeper (h : Moves { s with depth := s.depth + 1 } levels s') :
    Moves s levels { s' with depth := s'.depth - 1 } where
  rest := h.rest
  last := h.last
  depth := by
    have := h.depth
    show s'.depth - 1 = s.depth + levels
    dsimp only at this
    omega
  limit := h.limit

end Moves

/-- From this cursor the reader takes tokens, and it leaves the level as it was unless it fails to
enter one. -/
def BalancedAt {α : Type} (s : TokenCursor) (action : TokenReader α) : Prop :=
  match action s with
  | .ok _ s' => Moves s 0 s'
  | .error e s' => Moves s e.leaked s'

/-- An action that goes on as a balanced one does behind some tokens is balanced. -/
theorem BalancedAt.of_moves {α : Type} {s s' : TokenCursor} {x y : TokenReader α}
    (h : Moves s 0 s') (hsame : x s = y s') (hy : BalancedAt s' y) : BalancedAt s x := by
  unfold BalancedAt at hy ⊢
  rw [hsame]
  cases hs' : y s' with
  | ok a s'' =>
    rw [hs'] at hy
    exact h.trans hy
  | error e s'' =>
    rw [hs'] at hy
    have hmoves := h.trans hy
    rwa [Nat.zero_add] at hmoves

/-- Only the failure to enter a level leaves it counted. -/
theorem ParseError.Thrown.leaked {seen : Token → Prop} {e : ParseError} (h : e.Thrown seen) :
    e.leaked = 0 := by
  cases h <;> rfl

/-- The readers are balanced: a level that is entered is left again on every way out. -/
theorem balancedAt_rule : ReaderRule BalancedAt fun _ => True where
  pure _ s := Moves.refl s
  throw {_ e} he s := by
    show Moves s e.leaked s
    exact he.leaked ▸ .refl s
  bind {α β x f s} hx hf := by
    unfold BalancedAt at hx
    cases hs : x s with
    | ok a s' =>
      rw [hs] at hx
      exact .of_moves hx (bind_of_ok hs) (hf a s')
    | error e s' =>
      rw [hs] at hx
      unfold BalancedAt
      rw [bind_of_error hs]
      exact hx
  peek {β f s} hnone hsome := by
    refine .of_moves (.refl s) (bind_of_ok (TokenReader.peek_eq s)) ?_
    cases hr : s.rest with
    | nil => exact hnone
    | cons t r => exact hsome t r hr trivial
  get s := Moves.refl s
  pass h := Moves.pass h
  refuse s := by
    have hleaked : s.tooDeep.leaked = 1 := if_pos s.isTooDeep_tooDeep
    show Moves s s.tooDeep.leaked { s with depth := s.depth + 1 }
    rw [hleaked]
    exact ⟨⟨[], rfl, rfl⟩, rfl, rfl, rfl⟩
  deeper {α x s} hx := by
    have h := hx { s with depth := s.depth + 1 }
    unfold BalancedAt at h ⊢
    unfold TokenReader.deeper
    cases ha : x { s with depth := s.depth + 1 } with
    | ok a s' =>
      rw [ha] at h
      exact h.deeper
    | error e s' =>
      rw [ha] at h
      exact h.deeper

/-! ## Calls -/

/-- What may be read from a cursor. -/
inductive ReaderCall where
  | program
  | expression
  deriving DecidableEq, Repr

/-- The error of a reader, if it failed, and the cursor behind it. -/
def failure? {α : Type} :
    EStateM.Result ParseError TokenCursor α → Option ParseError × TokenCursor
  | .ok _ s => (none, s)
  | .error e s => (some e, s)

namespace ReaderCall

/-- The error of a call, if it failed, and the cursor behind it. -/
def run (call : ReaderCall) (s : TokenCursor) : Option ParseError × TokenCursor :=
  match call with
  | program => failure? (TokenReader.program s)
  | expression => failure? (TokenReader.wholeExpression s)

/-- The errors of calls on one cursor, one after the other, and the cursor behind them. -/
def runAll : List ReaderCall → TokenCursor → List ParseError × TokenCursor
  | [], s => ([], s)
  | call :: calls, s =>
    let (error, s') := call.run s
    let (errors, s'') := runAll calls s'
    (error.toList ++ errors, s'')

end ReaderCall

def limitFailures (errors : List ParseError) : Nat :=
  errors.countP (·.IsTooDeep)

theorem BalancedAt.moves {α : Type} {action : TokenReader α} {s : TokenCursor}
    (h : BalancedAt s action) :
    Moves s (limitFailures (failure? (action s)).1.toList) (failure? (action s)).2 := by
  unfold BalancedAt at h
  cases hs : action s with
  | ok a s' =>
    rw [hs] at h
    exact h
  | error e s' =>
    rw [hs] at h
    have hleaked : limitFailures [e] = e.leaked := by
      simp [limitFailures, ParseError.leaked, List.countP_cons]
    exact hleaked ▸ h

/-- A call takes tokens, and counts a level just if it fails at the limit. -/
theorem ReaderCall.run_moves (call : ReaderCall) (s : TokenCursor) :
    Moves s (limitFailures (call.run s).1.toList) (call.run s).2 := by
  cases call with
  | program => exact (balancedAt_rule.program s).moves
  | expression => exact (balancedAt_rule.wholeExpression s).moves

theorem ReaderCall.runAll_moves (calls : List ReaderCall) (s : TokenCursor) :
    Moves s (limitFailures (runAll calls s).1) (runAll calls s).2 := by
  induction calls generalizing s with
  | nil => exact .refl s
  | cons call calls ih =>
    have hadd := (call.run_moves s).trans (ih (call.run s).2)
    have hcount : limitFailures (runAll (call :: calls) s).1 =
        limitFailures (call.run s).1.toList + limitFailures (runAll calls (call.run s).2).1 :=
      List.countP_append
    rw [hcount]
    exact hadd

/-- Calls on one cursor have counted one level for each that failed at the limit, and none else. One
more call goes no token back and counts a level just if it fails there. -/
theorem calls_balanced (ts : List Token) (limit : Int) (calls : List ReaderCall) :
    let errors := (ReaderCall.runAll calls (.start ts limit)).1
    let s := (ReaderCall.runAll calls (.start ts limit)).2
    s.depth = limitFailures errors ∧ s.rest = ts.drop s.read ∧ s.read ≤ ts.length ∧
      ∀ call : ReaderCall, s.read ≤ (call.run s).2.read ∧
        (call.run s).2.depth = s.depth + limitFailures (call.run s).1.toList := by
  intro errors s
  have hmoves : Moves (.start ts limit) (limitFailures errors) s := ReaderCall.runAll_moves _ _
  obtain ⟨taken, hrest, hread⟩ := hmoves.rest
  have hread : s.read = taken.length := hread.trans (Nat.zero_add _)
  have hts : ts = taken ++ s.rest := hrest
  refine ⟨hmoves.depth.trans (Nat.zero_add _), ?_, ?_, fun call => ⟨?_, (call.run_moves s).depth⟩⟩
  · rw [hread, hts, List.drop_left]
  · rw [hread, hts, List.length_append]
    exact Nat.le_add_right _ _
  · obtain ⟨more, -, hmore⟩ := (call.run_moves s).rest
    rw [hmore]
    exact Nat.le_add_right _ _

end Imp32
