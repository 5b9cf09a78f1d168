import Imp32.Proofs.Editing.Words
import Imp32.Proofs.Highlighting.Tokens

/-!
# The kinds of pieces

A piece between blanks has the kind of its token, with one exception: a keyword directly behind a
number is shown as a name (`kinds_shown`). The scanner lets digits end where a word begins, while
a keyword is shown only where no letter, no numeral and no underscore touches it. What follows a
keyword never touches it, and of what can stand directly in front of one only a number does
(`touched_iff`).
-/

namespace Imp32

open Scanner Highlight

/-- The token is a keyword directly behind a number, one of these tokens. -/
def Token.GluedIn (ts : List Token) (t : Token) : Prop :=
  t.lexeme.pieceKind = .keyword ∧
    ∃ u ∈ ts, u.lexeme.pieceKind = .number ∧ u.span.stop = t.span.start

instance (ts : List Token) (t : Token) : Decidable (t.GluedIn ts) :=
  inferInstanceAs (Decidable (_ ∧ _))

def Token.shownKind (ts : List Token) (t : Token) : PieceKind :=
  if t.GluedIn ts then .name else t.lexeme.pieceKind

namespace Highlight

/-! ## Characters of words -/

section Words

variable {l : Lexeme} {xs : List Char}

theorem isWordChar_of_isBlank {c : Char} (h : Text.isBlank c = true) : isWordChar c = false := by
  have hunderscore : c ≠ '_' := by
    rintro rfl
    revert h
    decide
  unfold isWordChar
  rw [Text.isAlphanumeric_of_isBlank h, decide_eq_false hunderscore, Bool.false_or]

theorem isWordChar_of_ascii {c : Char} (h : c.toNat < 0x80) (hunderscore : c ≠ '_') :
    isWordChar c = c.isAlphanum := by
  unfold isWordChar
  rw [Text.isAlphanumeric_of_ascii h, decide_eq_false hunderscore, Bool.or_false]

theorem isWordChar_of_isAlphanum_eq {c : Char} (h : c.isAlphanum = true) :
    isWordChar c = c.isAlphanum :=
  (isWordChar_of_isAlphanum h).trans h.symm

/-- What is spelled has the characters of words that are ASCII letters and digits. -/
theorem isWordChar_of_spelledBy (h : l.SpelledBy xs) : ∀ c ∈ xs, isWordChar c = c.isAlphanum := by
  intro c hc
  cases h with
  | @fixed _ text hl =>
    have hascii : text.toList.all (fun c => decide (c.toNat < 0x80) && decide (c ≠ '_')) =
        true := by
      cases l with
      | op op => cases hl; cases op <;> decide
      | num _ => cases hl
      | ident _ => cases hl
      | _ => cases hl; decide
    obtain ⟨hlow, hunderscore⟩ := Bool.and_eq_true_iff.1 (List.all_eq_true.1 hascii c hc)
    exact isWordChar_of_ascii (of_decide_eq_true hlow) (of_decide_eq_true hunderscore)
  | num _ hdigits =>
    exact isWordChar_of_isAlphanum_eq (by simp [Char.isAlphanum, hdigits c hc])
  | ident hname => exact isWordChar_of_isAlphanum_eq (hname.isAlphanum c hc)

/-- A letter or digit at the end of a spelling, other than that of a number, can be gone on with. -/
theorem goesOnWith_of_last (h : l.SpelledBy xs) (hl : l.pieceKind ≠ .number) {c d : Char}
    (hc : c ∈ xs) (hletter : c.isAlphanum = true) : l.goesOnWith d = d.isAlphanum := by
  cases h with
  | fixed hspell =>
    obtain ⟨-, hgoes⟩ | hsigns := Lexeme.keyword_or_signs hspell
    · exact hgoes d
    · have := List.all_eq_true.1 hsigns c hc
      rw [Text.isSign, hletter, Bool.not_true, Bool.and_false] at this
      cases this
  | num => exact absurd rfl hl
  | ident => rfl

/-- Letters and digits go on with a keyword. -/
theorem goesOnWith_of_keyword (hl : l.pieceKind = .keyword) (c : Char) :
    l.goesOnWith c = c.isAlphanum := by
  cases l with
  | ifWord => rfl
  | whileWord => rfl
  | forWord => rfl
  | _ => cases hl

/-- A keyword begins with a letter. -/
theorem exists_first_of_keyword (h : l.SpelledBy xs) (hl : l.pieceKind = .keyword) :
    ∃ first tail, xs = first :: tail ∧ first.isAlphanum = true := by
  cases h with
  | fixed hspell =>
    cases l with
    | ifWord => cases hspell; exact ⟨'i', _, rfl, rfl⟩
    | whileWord => cases hspell; exact ⟨'w', _, rfl, rfl⟩
    | forWord => cases hspell; exact ⟨'f', _, rfl, rfl⟩
    | _ => cases hl
  | num => cases hl
  | ident => cases hl

/-- A number ends with a digit. -/
theorem isAlphanum_of_number (h : l.SpelledBy xs) (hl : l.pieceKind = .number) :
    ∀ c ∈ xs, c.isAlphanum = true := by
  cases h with
  | fixed hspell =>
    cases l with
    | num _ => cases hspell
    | _ => cases hl
  | num _ hdigits => exact fun c hc => by simp [Char.isAlphanum, hdigits c hc]
  | ident => cases hl

end Words

/-! ## Neighbours -/

/-- The character in front of the scanner is the last one of the token read before, which ends
here. -/
def Follows (before : Option Char) (s : Scanner) : Option Token → Prop
  | none => before = none
  | some u => ∃ xs, u.lexeme.SpelledBy xs ∧ before = xs.getLast? ∧ u.lexeme.EndsBefore s.rest ∧
      u.span.stop = s.offset

section Neighbours

variable {before : Option Char} {s s' s'' : Scanner} {ws xs : List Char} {t : Token}
  {ts : List Token} {prev : Option Token}

theorem follows_of_cuts (h : Cuts s ws xs t s') : Follows xs.getLast? s' (some t) :=
  ⟨xs, h.spelled, rfl, h.ends, by rw [h.span, h.pass]; rfl⟩

/-- What is cut off next begins with a blank or with what can begin a lexeme. -/
theorem isWordChar_of_rest (hscans : Scans s ts s') (hend : s'.AtEnd) :
    ∀ c ∈ s.rest.head?, isWordChar c = true → c.isAlphanum = true := by
  intro c hc hword
  have hblank : ∀ ws : List Char, (∀ w ∈ ws, Text.isBlank w = true) → c ∉ ws := by
    intro ws hws hmem
    rw [isWordChar_of_isBlank (hws c hmem)] at hword
    cases hword
  cases hscans with
  | refl => exact absurd (List.mem_of_mem_head? hc) (hblank _ hend.isBlank)
  | step hnext _ =>
    obtain ⟨ws, xs, hcut⟩ := exists_cuts hnext
    rw [hcut.rest] at hc
    cases ws with
    | cons w ws =>
      cases hc
      exact absurd List.mem_cons_self (hblank _ hcut.blanks)
    | nil =>
      obtain ⟨first, tail, rfl⟩ := List.exists_cons_of_ne_nil hcut.spelled.ne_nil
      cases hc
      exact (isWordChar_of_spelledBy hcut.spelled _ List.mem_cons_self) ▸ hword

/-- No character of a word touches the end of a keyword. -/
theorem any_head?_eq_false (hkeyword : t.lexeme.pieceKind = .keyword)
    (hends : t.lexeme.EndsBefore s.rest) (hscans : Scans s ts s') (hend : s'.AtEnd) :
    s.rest.head?.any isWordChar = false := by
  cases hhead : s.rest.head? with
  | none => rfl
  | some c =>
    refine Bool.eq_false_iff.2 fun hword => ?_
    have hletter := isWordChar_of_rest hscans hend c hhead hword
    rw [← goesOnWith_of_keyword hkeyword, hends c hhead] at hletter
    cases hletter

/-- A character of a word touches the start of a keyword just if it is the last digit of a
number. -/
theorem touched_iff (hprev : Follows before s prev) (hcut : Cuts s ws xs t s')
    (hkeyword : t.lexeme.pieceKind = .keyword) :
    (ws.getLast?.or before).any isWordChar = true ↔ t.GluedIn prev.toList := by
  have hstart : t.span.start = s.offset + Text.utf8Length ws := by
    rw [hcut.span]
    rfl
  obtain ⟨first, tail, rfl, hfirst⟩ := exists_first_of_keyword hcut.spelled hkeyword
  unfold Token.GluedIn
  by_cases hws : ws = []
  · subst hws
    cases prev with
    | none =>
      obtain rfl : before = none := hprev
      simp
    | some u =>
      obtain ⟨ys, hspelled, rfl, hends, hstop⟩ := hprev
      have hlast := List.getLast?_eq_some_getLast hspelled.ne_nil
      have hmem := List.getLast_mem hspelled.ne_nil
      rw [List.getLast?_nil, Option.none_or, hlast, Option.any_some,
        isWordChar_of_spelledBy hspelled _ hmem]
      by_cases hnumber : u.lexeme.pieceKind = .number
      · have hletter := isAlphanum_of_number hspelled hnumber _ hmem
        have hat : u.span.stop = t.span.start := by
          rw [hstop, hstart]
          exact (Int.add_zero _).symm
        simp [hletter, hkeyword, hnumber, hat]
      · have hnot : ¬(ys.getLast hspelled.ne_nil).isAlphanum = true := by
          intro hletter
          have hgoes := hends first (by rw [hcut.rest]; rfl)
          rw [goesOnWith_of_last hspelled hnumber hmem hletter, hfirst] at hgoes
          cases hgoes
        simp [hnot, hnumber]
  · have hlast := List.getLast?_eq_some_getLast hws
    have hblank := isWordChar_of_isBlank (hcut.blanks _ (List.getLast_mem hws))
    have hpos := Text.utf8Length_pos hws
    rw [hlast, Option.some_or, Option.any_some, hblank]
    refine iff_of_false nofun ?_
    rintro ⟨-, u, hu, -, hat⟩
    obtain rfl := Option.mem_toList.1 hu
    obtain ⟨ys, -, -, -, hstop⟩ := hprev
    omega

/-- The kind of a token's piece depends on the token before it only. -/
theorem kindBetween_eq (hprev : Follows before s prev) (hcut : Cuts s ws xs t s')
    (hscans : Scans s' ts s'') (hend : s''.AtEnd) :
    kindBetween (ws.getLast?.or before) s'.rest t.lexeme =
      if t.GluedIn prev.toList then .name else t.lexeme.pieceKind := by
  refine if_congr ?_ rfl rfl
  by_cases hkeyword : t.lexeme.pieceKind = .keyword
  · rw [any_head?_eq_false hkeyword hcut.ends hscans hend, touched_iff hprev hcut hkeyword]
    simp [hkeyword]
  · exact iff_of_false (fun h => hkeyword h.1) fun h => hkeyword h.1

end Neighbours

/-! ## Texts -/

/-- Of the tokens before it, only the last one can end where a token begins. -/
theorem gluedIn_getLast?_iff {done ts : List Token} {t : Token} (h : Ordered (done ++ t :: ts)) :
    t.GluedIn done.getLast?.toList ↔ t.GluedIn (done ++ t :: ts) := by
  refine and_congr_right fun _ => ⟨?_, ?_⟩
  · rintro ⟨u, hu, hnumber⟩
    exact ⟨u, List.mem_append_left _ (List.mem_of_getLast? (Option.mem_toList.1 hu)), hnumber⟩
  · rintro ⟨u, hu, hnumber, hstop⟩
    refine ⟨u, Option.mem_toList.2 ?_, hnumber, hstop⟩
    have hpos := h.nonempty u hu
    have hpos' := h.nonempty t (by simp)
    rcases List.mem_append.1 hu with hdone | hrest
    · obtain ⟨front, last, rfl⟩ : ∃ front last, done = front ++ [last] :=
        ⟨_, _, (List.dropLast_concat_getLast (List.ne_nil_of_mem hdone)).symm⟩
      rw [List.getLast?_concat]
      rcases List.mem_append.1 hdone with hfront | hlast
      · have hstop' := (List.append_assoc front [last] _ ▸ h).stop_le_start hfront
          (List.mem_cons_self (a := last))
        have hafter := h.stop_le_start (List.mem_append_right front (List.mem_singleton_self last))
          (List.mem_cons_self (a := t))
        have := h.nonempty last (by simp)
        omega
      · exact congrArg some (List.mem_singleton.1 hlast).symm
    · rcases List.mem_cons.1 hrest with rfl | hrest
      · omega
      · have := (List.pairwise_cons.1 (List.pairwise_append.1 h.apart).2.1).1 u hrest
        omega

/-- The kinds of the pieces of the tokens that are still to be read. -/
theorem kinds_of_scans {s s' : Scanner} {ts : List Token} (hscans : Scans s ts s')
    (hend : s'.AtEnd) : ∀ (before : Option Char) (done : List Token),
      Follows before s done.getLast? → Ordered (done ++ ts) →
        (shown (piecesBehind before s.rest)).map Piece.kind =
          ts.map (Token.shownKind (done ++ ts)) := by
  induction hscans with
  | refl s =>
    intro before done _ _
    rw [piecesBehind_of_atEnd hend, shown_blankPieces]
    rfl
  | @step s s₁ s' t ts hnext hscans ih =>
    intro before done hprev hordered
    obtain ⟨ws, xs, hcut⟩ := exists_cuts hnext
    have hassoc : (done ++ [t]) ++ ts = done ++ t :: ts := by simp
    have hkind : kindBetween (ws.getLast?.or before) s₁.rest t.lexeme =
        t.shownKind (done ++ t :: ts) := by
      rw [kindBetween_eq hprev hcut hscans hend]
      exact if_congr (gluedIn_getLast?_iff hordered) rfl rfl
    have hfollows : Follows xs.getLast? s₁ (done ++ [t]).getLast? := by
      rw [List.getLast?_concat]
      exact follows_of_cuts hcut
    have hrest := ih hend xs.getLast? (done ++ [t]) hfollows (hassoc.symm ▸ hordered)
    rw [piecesBehind_of_cuts hcut, shown_blanks_cons (kindBetween_ne _ _ _).1, List.map_cons,
      List.map_cons, hrest, hassoc, hkind]

/-- The pieces between blanks have the kinds of the tokens, except that a keyword directly behind a
number is shown as a name. -/
theorem kinds_shown {source : String} {ts : List Token} (h : tokens source = .ok ts) :
    (shown (pieces source.toList)).map Piece.kind = ts.map (Token.shownKind ts) := by
  obtain ⟨s, hscans, hend⟩ := tokens_eq_ok.1 h
  exact kinds_of_scans hscans hend none [] rfl (tokens_ordered h)

/-- A text with a keyword directly behind a number and with one that stands apart. -/
def gluedKeyword : String := "(1if)while"

theorem kinds_shown_gluedKeyword : ∃ ts, tokens gluedKeyword = .ok ts ∧
    ts.map (fun t => t.lexeme.pieceKind) =
      [.punctuation, .number, .keyword, .punctuation, .keyword] ∧
    (shown (pieces gluedKeyword.toList)).map Piece.kind =
      [.punctuation, .number, .name, .punctuation, .keyword] := by
  have hread : (tokens gluedKeyword).toOption = some [⟨.leftParen, ⟨0, 1⟩⟩, ⟨.num 1, ⟨1, 2⟩⟩,
      ⟨.ifWord, ⟨2, 4⟩⟩, ⟨.rightParen, ⟨4, 5⟩⟩, ⟨.whileWord, ⟨5, 10⟩⟩] := by decide +kernel
  cases htokens : tokens gluedKeyword with
  | error e =>
    rw [htokens] at hread
    cases hread
  | ok ts =>
    rw [htokens] at hread
    cases hread
    exact ⟨_, rfl, rfl, (kinds_shown htokens).trans (by decide)⟩

end Highlight

end Imp32
