import Imp32.Proofs.Joining.Tokens
import Mathlib.Data.List.TakeWhile

/-!
# Texts that stand apart

Between two texts that stand apart by blanks nothing is read that is not read in one of them: they
are cut into tokens, or fail, as each does by itself, the second one moved behind the blanks
(`tokens_append_blanks`). No piece goes on into a blank, neither one that is a token nor one that is
an error, so that the first text is read as if nothing followed.
-/

namespace Imp32

open Scanner

/-- No blank goes on with a lexeme. -/
theorem Lexeme.goesOnWith_of_isBlank (l : Lexeme) {c : Char} (h : Text.isBlank c = true) :
    l.goesOnWith c = false := by
  have hletter := Text.isAlphanum_of_isBlank h
  have hequals := decide_eq_false (Text.ne_equals_of_isBlank h)
  cases l with
  | op op => cases op <;> first | rfl | exact hequals
  | num _ => exact Text.isDigit_of_isBlank h
  | ident _ => exact hletter
  | ifWord => exact hletter
  | whileWord => exact hletter
  | forWord => exact hletter
  | _ => rfl

theorem LexError.shift_zero (e : LexError) : e.shift 0 = e := by
  cases e <;> simp [shift, Span.shift]

/-- Moving twice is moving once. -/
theorem shiftTokens_shiftTokens (outcome : Except LexError (List Token)) (m n : Int) :
    shiftTokens (shiftTokens outcome m) n = shiftTokens outcome (m + n) := by
  have hspan : ∀ span : Span, (span.shift m).shift n = span.shift (m + n) := fun span => by
    simp only [Span.shift, Int.add_assoc]
  cases outcome with
  | ok ts => simp [shiftTokens, Token.shift, hspan]
  | error e => cases e <;> simp [shiftTokens, LexError.shift, hspan]

/-- Blanks hold no token. -/
theorem tokens_of_blanks {w : String} (hw : ∀ c ∈ w.toList, Text.isBlank c = true) :
    tokens w = .ok [] := by
  refine tokens_of_atEnd (.refl _) ?_
  show w.toList.dropWhile Text.isBlank = []
  exact List.dropWhile_eq_nil_iff.2 hw

/-- An error is the same whatever stands behind a blank that follows. -/
theorem tokens_append_of_error {a b : String} {e : LexError} (ha : tokens a = .error e)
    (hb : ∀ c ∈ b.toList.head?, Text.isBlank c = true) : tokens (a ++ b) = .error e := by
  obtain ⟨ts, s, hscans, hfails⟩ := tokens_eq_error.1 ha
  have hstart : Behind 0 b.toList (.start a.toList) (.start (a ++ b).toList) :=
    ⟨String.toList_append, rfl⟩
  obtain ⟨t, hfirst, ht⟩ := hscans.behind hstart fun u _ c hc =>
    u.lexeme.goesOnWith_of_isBlank (hb c hc)
  exact e.shift_zero ▸ tokens_of_fails hfirst (ht.fails hb hfails)

/-- Texts that stand apart by blanks are cut as each is by itself, the second one moved by the bytes
in front of it; the first error is the one that is left. -/
theorem tokens_append_blanks {w : String} (hne : w ≠ "")
    (hw : ∀ c ∈ w.toList, Text.isBlank c = true) (a b : String) :
    tokens (a ++ w ++ b) =
      match tokens a, tokens b with
      | .error e, _ => .error e
      | .ok _, .error e => .error (e.shift (Text.utf8Length (a ++ w).toList))
      | .ok ts, .ok us => .ok (ts ++ us.map (·.shift (Text.utf8Length (a ++ w).toList))) := by
  have hhead : ∀ c ∈ (w ++ b).toList.head?, Text.isBlank c = true := by
    obtain ⟨c, cs, hcs⟩ := List.exists_cons_of_ne_nil (mt String.toList_eq_nil_iff.1 hne)
    rw [String.toList_append, hcs]
    rintro _ ⟨⟩
    exact hw c (hcs ▸ List.mem_cons_self)
  have hlength : (Text.utf8Length (a ++ w).toList : Int) =
      Text.utf8Length w.toList + Text.utf8Length a.toList := by
    rw [String.toList_append, Text.utf8Length_append]
    omega
  rw [String.append_assoc, hlength]
  cases ha : tokens a with
  | error e => exact tokens_append_of_error ha hhead
  | ok ts =>
    have hseam : ∀ t ∈ ts.getLast?, t.lexeme.EndsBefore (w ++ b).toList :=
      fun t _ c hc => t.lexeme.goesOnWith_of_isBlank (hhead c hc)
    have hsecond : tokens (w ++ b) = shiftTokens (tokens b) (Text.utf8Length w.toList) := by
      rw [tokens_append_eq (tokens_of_blanks hw) nofun]
      cases shiftTokens (tokens b) (Text.utf8Length w.toList) <;> rfl
    rw [tokens_append_eq ha hseam, hsecond, shiftTokens_shiftTokens]
    cases tokens b <;> rfl

/-- An ideographic space is three bytes long, and keeps `<` and `=` apart. -/
theorem tokens_append_blanks_ideographic :
    "\u3000" ≠ "" ∧ (∀ c ∈ "\u3000".toList, Text.isBlank c = true) ∧
      tokens ("1 <" ++ "\u3000" ++ "= !") = .error (.invalidToken "!" ⟨8, 9⟩) := by
  have hne : "\u3000" ≠ "" := by decide
  have hblank : ∀ c ∈ "\u3000".toList, Text.isBlank c = true := List.all_eq_true.1 (by decide)
  refine ⟨hne, hblank, ?_⟩
  rw [tokens_append_blanks hne hblank]
  decide +kernel

end Imp32
