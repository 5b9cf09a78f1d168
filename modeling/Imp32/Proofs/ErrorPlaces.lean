import Imp32.Proofs.Grammar.Complete
import Imp32.Proofs.Reading.Completion

/-!
# Errors at the first place where nothing fits

If the limit of nesting is no bound, tokens that are no program are refused at the first place where
they can no longer be completed: what stands before can be, and with the token at the place it can
not (`ofTokens_error_explains`). The first half is that every reader fails where its language goes
on (`TokenReader.program_stuck`), the second that the reader has looked no further than the place
(`TokenReader.Local.program`), so that it fails on whatever begins alike.
-/

namespace Imp32

open Grammar

/-- The tokens begin a list that is read as a program, if the limit is high enough. -/
def Viable (ts : List Token) : Prop :=
  ∃ us limit p, Program.ofTokens (ts ++ us) limit = .ok p

/-- The innermost parenthesis that is open behind the tokens. -/
def innermostOpen? (ts : List Token) : Option Token :=
  (openParens [] ts).head?

/-- What an error says of the tokens of which so many have been read. -/
def ParseError.Explains (ts : List Token) (read : Nat) : ParseError → Prop
  | .unexpectedToken t =>
    ts[read]? = some t ∧ Viable (ts.take read) ∧ ¬Viable (ts.take (read + 1))
  | .invalidAssignmentTarget t =>
    ∃ k, read = k + 1 ∧ ts[k]? = some t ∧ Viable (ts.take k) ∧ ¬Viable (ts.take (k + 1))
  | .unexpectedEnd =>
    read = ts.length ∧ Viable ts ∧ ∀ limit p, Program.ofTokens ts limit ≠ .ok p
  | .unmatchedLeftParen t =>
    read ≤ ts.length ∧ Viable (ts.take read) ∧
      (read = ts.length ∨ ¬Viable (ts.take (read + 1))) ∧ innermostOpen? (ts.take read) = some t
  | .nestingTooDeep _ _ | .nestingTooDeepAtNothing => False

section Places

variable {ts us : List Token} {limit : Int} {e : ParseError} {s : TokenCursor}

/-- Whatever begins a word of the grammar begins a program that is read. -/
theorem viable_of_word {zs : List Lexeme} (h : us.map Token.lexeme ++ zs ∈ programWords) :
    Viable us := by
  obtain ⟨p, hp⟩ := h
  let more : List Token := zs.map (⟨·, .none⟩)
  have hd : Statements ((us ++ more).map Token.lexeme) p := by
    simpa [more, Function.comp_def] using hp
  obtain ⟨q, hq, -⟩ := ofTokens_complete hd (Int.le_refl (us ++ more).length)
  exact ⟨more, _, q, hq⟩

/-- A program that is read under some limit is read under every one that is high enough. -/
theorem ofTokens_ok_of_le {p : Program} (h : Program.ofTokens ts limit = .ok p) {limit' : Int}
    (hlimit : ts.length ≤ limit') : ∃ q, Program.ofTokens ts limit' = .ok q := by
  obtain ⟨q, hq, -⟩ := ofTokens_complete (ofTokens_sound h) hlimit
  exact ⟨q, hq⟩

theorem program_eq_error : Program.ofTokens ts limit = .error e ↔
    ∃ s, TokenReader.program (.start ts limit) = .error e s := by
  unfold Program.ofTokens readTokens
  cases TokenReader.program (.start ts limit) <;> simp

/-- Nothing that begins with the tokens up to the place of an error, and with the one that stands
there, is read as a program. -/
theorem not_viable_of_error (h : TokenReader.program (.start ts limit) = .error e s)
    (he : ¬e.IsTooDeep) (hplace : e.place s < ts.length) : ¬Viable (ts.take (e.place s + 1)) := by
  rintro ⟨more, limit', p, hp⟩
  obtain ⟨q, hq⟩ := ofTokens_ok_of_le hp
    (Int.le_max_right limit (ts.take (e.place s + 1) ++ more).length)
  -- under the higher limit, both lists are read alike as far as the place of the error
  have htake : (ts.take (e.place s + 1) ++ more).take (e.place s + 1) =
      ts.take (e.place s + 1) := by
    rw [List.take_append_of_le_length (by rw [List.length_take]; omega), List.take_take,
      Nat.min_self]
  have halike := TokenReader.Local.program htake
    (Int.le_max_left limit (ts.take (e.place s + 1) ++ more).length)
  rw [h] at halike
  obtain ⟨s', hs', -⟩ := halike.same (Nat.lt_succ_self _) he
  rw [program_eq_error.2 ⟨s', hs'⟩] at hq
  cases hq

theorem getElem?_of_head? {t : Token} {rest : List Token} (hs : ts = us ++ rest)
    (h : rest.head? = some t) : us.length < ts.length ∧ ts[us.length]? = some t := by
  obtain ⟨r, rfl⟩ := List.head?_eq_some_iff.1 h
  simp [hs]

/-- Below the limit of nesting, every error is at the first place where the tokens can no longer be
completed. -/
theorem ofTokens_error_explains (hlimit : ts.length < limit)
    (h : Program.ofTokens ts limit = .error e) :
    ∃ s, TokenReader.program (.start ts limit) = .error e s ∧ e.Explains ts s.read := by
  obtain ⟨s, hread⟩ := program_eq_error.1 h
  refine ⟨s, hread, ?_⟩
  obtain ⟨us, rest, zs, hs, hpos, hfits, hword⟩ := TokenReader.program_stuck hread
  have hts : ts = us ++ rest := hs
  replace hpos : s.read = us.length + e.passed := hpos.trans (by simp [TokenCursor.start])
  have hplace : e.place s = us.length := by
    rw [ParseError.place, hpos, Nat.add_sub_cancel]
  have hlength : ts.length = us.length + rest.length := by rw [hts, List.length_append]
  have htake : ts.take us.length = us := by simp [hts]
  have hviable : Viable us := viable_of_word hword
  have hlast : ¬e.IsTooDeep → us.length < ts.length → ¬Viable (ts.take (us.length + 1)) :=
    fun he hlt => hplace ▸ not_viable_of_error hread he (hplace ▸ hlt)
  have hdeep : ¬limit.toNat ≤ us.length := by omega
  cases e with
  | unexpectedToken t =>
    obtain ⟨hlt, ht⟩ := getElem?_of_head? hts hfits
    have hpos : s.read = us.length := hpos
    unfold ParseError.Explains
    rw [hpos, htake]
    exact ⟨ht, hviable, hlast id hlt⟩
  | invalidAssignmentTarget t =>
    obtain ⟨hlt, ht⟩ := getElem?_of_head? hts hfits
    refine ⟨us.length, hpos, ht, ?_, hlast id hlt⟩
    rwa [htake]
  | unexpectedEnd =>
    obtain rfl : rest = [] := hfits
    rw [List.append_nil] at hts
    subst hts
    refine ⟨hpos, hviable, fun limit' p hp => ?_⟩
    obtain ⟨q, hq⟩ := ofTokens_ok_of_le hp (Int.le_of_lt hlimit)
    rw [h] at hq
    cases hq
  | unmatchedLeftParen t =>
    have hpos : s.read = us.length := hpos
    unfold ParseError.Explains
    rw [hpos, htake]
    refine ⟨by omega, hviable, ?_, hfits []⟩
    rcases Nat.lt_or_ge us.length ts.length with hlt | hge
    · exact .inr (hlast id hlt)
    · exact .inl (by omega)
  | nestingTooDeep t limit => exact hdeep hfits
  | nestingTooDeepAtNothing => exact hdeep hfits

/-- The tokens `x = ( a b`. -/
def unclosed : List Token :=
  [⟨.ident "x", .none⟩, ⟨.op .assign, .none⟩, ⟨.leftParen, .none⟩, ⟨.ident "a", .none⟩,
    ⟨.ident "b", .none⟩]

/-- The parenthesis is not closed behind four tokens. -/
theorem ofTokens_error_explains_unclosed : unclosed.length < (6 : Int) ∧
    ∃ s, TokenReader.program (.start unclosed 6) =
      .error (.unmatchedLeftParen ⟨.leftParen, .none⟩) s ∧ s.read = 4 ∧
      (ParseError.unmatchedLeftParen ⟨.leftParen, .none⟩).Explains unclosed s.read := by
  have hread : TokenReader.program (.start unclosed 6) =
      .error (.unmatchedLeftParen ⟨.leftParen, .none⟩)
        ⟨[⟨.ident "b", .none⟩], some ⟨.ident "b", .none⟩, 4, 0, 6⟩ := by
    rw [TokenReader.program_start, unclosed, TokenReader.statementsToEnd_of_cons _ rfl]
    exact bind_of_error rfl
  have hlimit : unclosed.length < (6 : Int) := by decide
  obtain ⟨s, hs, hexplains⟩ := ofTokens_error_explains hlimit (program_eq_error.2 ⟨_, hread⟩)
  refine ⟨hlimit, s, hs, ?_, hexplains⟩
  rw [hread] at hs
  cases hs
  rfl

end Places

end Imp32
