import Imp32.Proofs.Reading.Completion

/-!
# What the limit of nesting does

The limit of nesting does nothing but refuse: where reading does not fail at the limit, its outcome
is the same under every higher one, and it does not fail at a limit that is greater than the number
of tokens (`limit_onlyRefuses`).

The first half is that a reader comes to the same result in more room, on the same tokens
(`TokenReader.Local`), the second that a level is only refused behind a token for each one that has
been entered (`TokenReader.Stuck.room_le`).
-/

namespace Imp32

/-- Reading has failed at the limit of nesting. -/
def IsRefused {α : Type} (outcome : Except ParseError α) : Prop :=
  ∃ e, outcome = .error e ∧ e.IsTooDeep

/-- Reading this many tokens under a limit: all that a lower limit does is to refuse, and a limit
that is greater than the number of tokens does not. -/
structure OnlyRefuses {α : Type} (read : Int → Except ParseError α) (count : Nat) : Prop where
  same : ∀ limit limit', limit ≤ limit' → ¬IsRefused (read limit) → read limit' = read limit
  enough : ∀ limit : Int, count < limit → ¬IsRefused (read limit)

/-- A level is refused behind a token for each level that there is room for. -/
theorem Stuck.room_le {room : Nat} {L : Language Lexeme} {s s' : TokenCursor} {e : ParseError}
    (h : Stuck room L s e s') (he : e.IsTooDeep) : room ≤ s.rest.length := by
  obtain ⟨us, rest, -, hs, -, hfits, -⟩ := h
  have hroom : room ≤ us.length := by
    cases e with
    | nestingTooDeep t limit => exact hfits
    | nestingTooDeepAtNothing => exact hfits
    | _ => exact he.elim
  rw [hs, List.length_append]
  omega

section ReadTokens

variable {α : Type} {action : TokenReader α} {ts : List Token} {limit limit' : Int}

/-- Results that are alike as far as the first goes are the same outcome. -/
theorem readTokens_congr
    (h : ∀ n, Alike n (.start ts limit) (action (.start ts limit)) (action (.start ts limit')))
    (hdeep : ¬IsRefused (readTokens action ts limit)) :
    readTokens action ts limit' = readTokens action ts limit := by
  unfold readTokens IsRefused at *
  have hsame := (h (reach (action (.start ts limit)) + 1)).same (Nat.lt_succ_self _)
  cases hread : action (.start ts limit) with
  | ok a s =>
    rw [hread] at hsame
    obtain ⟨t, ht, -⟩ := hsame
    rw [ht]
  | error e s =>
    rw [hread] at hsame hdeep
    obtain ⟨t, ht, -⟩ := hsame fun he => hdeep ⟨e, rfl, he⟩
    rw [ht]

/-- A reader that is refused only in front of as many tokens as it has room for is not refused under
a greater limit. -/
theorem not_isRefused_readTokens
    (h : ∀ e s, action (.start ts limit) = .error e s → e.IsTooDeep → limit.toNat ≤ ts.length)
    (hlimit : ts.length < limit) : ¬IsRefused (readTokens action ts limit) := by
  rintro ⟨e, hread, he⟩
  unfold readTokens at hread
  cases haction : action (.start ts limit) with
  | ok a s =>
    rw [haction] at hread
    cases hread
  | error e' s =>
    rw [haction] at hread
    cases hread
    have := h e s haction he
    omega

end ReadTokens

namespace TokenReader

/-- A single expression is read in the room that the limit leaves. -/
theorem wholeExpression_start (ts : List Token) (limit : Int) :
    wholeExpression (.start ts limit) =
      (expression limit.toNat Precedence.lowest >>= fun e => peek >>= fun
        | some token => throw (.unexpectedToken token)
        | none => return e) (.start ts limit) := by
  rw [← TokenCursor.room_start ts limit]
  rfl

theorem Local.wholeExpression {n : Nat} {ts : List Token} {limit limit' : Int}
    (hlimit : limit ≤ limit') : Alike n (.start ts limit) (wholeExpression (.start ts limit))
      (wholeExpression (.start ts limit')) := by
  have hagree : Agree n (.start ts limit) (.start ts limit') := ⟨rfl, rfl⟩
  have hroom : limit.toNat ≤ limit'.toNat := by omega
  rw [wholeExpression_start, wholeExpression_start]
  refine ((Local.expression hroom _).bind fun e => Local.peek.bind fun t => ?_) _ _ hagree
  cases t with
  | some t => exact .throw fun _ => rfl
  | none => exact .pure e

theorem wholeExpression_room_le {ts : List Token} {limit : Int} {e : ParseError} {s : TokenCursor}
    (h : wholeExpression (.start ts limit) = .error e s) (he : e.IsTooDeep) :
    limit.toNat ≤ ts.length := by
  rw [wholeExpression_start] at h
  rcases bind_eq_error.1 h with hexpr | ⟨a, s₁, -, hend⟩
  · exact ((expression_completes _).stuck hexpr).room_le he
  · rw [bind_of_ok (peek_eq s₁)] at hend
    cases hr : s₁.rest with
    | nil =>
      rw [hr] at hend
      cases hend
    | cons t r =>
      rw [hr] at hend
      cases hend
      exact he.elim

end TokenReader

/-- The limit of nesting changes the outcome of reading only by refusing, and is no bound if it is
greater than the number of tokens. -/
theorem limit_onlyRefuses (ts : List Token) :
    OnlyRefuses (Program.ofTokens ts) ts.length ∧ OnlyRefuses (Expr.ofTokens ts) ts.length where
  left :=
    { same := fun _ _ hlimit => readTokens_congr fun _ => TokenReader.Local.program rfl hlimit
      enough := fun _ => not_isRefused_readTokens fun _ _ h he =>
        (TokenReader.program_stuck h).room_le he }
  right :=
    { same := fun _ _ hlimit => readTokens_congr fun _ => TokenReader.Local.wholeExpression hlimit
      enough := fun _ => not_isRefused_readTokens fun _ _ => TokenReader.wholeExpression_room_le }

/-- A limit of as many levels as there are tokens may refuse: the missing operand of a minus is the
second level. -/
example : IsRefused (Expr.ofTokens [⟨.op .sub, .none⟩] 1) :=
  ⟨_, rfl, trivial⟩

end Imp32
