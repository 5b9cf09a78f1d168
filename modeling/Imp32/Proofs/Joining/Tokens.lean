import Imp32.Proofs.Munch

/-!
# Tokens across a seam

The tokens of two texts that are put together are the tokens of the first and those of the second,
moved by the bytes of the first, if no character of the second goes on with the last token of the
first (`tokens_append`); an error of the second is moved as well (`tokens_append_eq`). The scanner is
compared with one that stands the same number of bytes further back in a longer text, and the seam
matters to the last token alone: every other one is ended by the token behind it.
-/

namespace Imp32

namespace Scanner

/-- The second scanner stands this number of bytes further back, and more follows what it has to
read. -/
structure Behind (n : Nat) (more : List Char) (s t : Scanner) : Prop where
  rest : t.rest = s.rest ++ more
  offset : t.offset = s.offset + n

section Behind

variable {n : Nat} {more : List Char} {s s' t : Scanner} {ts us : List Token}

/-- A token that ends in front of what follows is read from the longer text as well. -/
theorem Behind.next {u : Token} (h : Behind n more s t) (hnext : s.next = .ok (some u) s')
    (hends : u.lexeme.EndsBefore (s'.rest ++ more)) :
    ∃ t', t.next = .ok (some (u.shift n)) t' ∧ Behind n more s' t' := by
  obtain ⟨ws, xs, hcut⟩ := exists_cuts hnext
  have hrest : t.rest = ws ++ (xs ++ (s'.rest ++ more)) := by
    rw [h.rest, hcut.rest, List.append_assoc, List.append_assoc]
  have hshift : u.shift n = ⟨u.lexeme, t.pieceSpan ws xs⟩ := by
    unfold Token.shift
    rw [hcut.span]
    simp only [pieceSpan, Span.shift, h.offset, Token.mk.injEq, Span.mk.injEq, true_and]
    omega
  refine ⟨_, hshift ▸ next_of_takes hcut.blanks hrest
    (takes_of_spelledBy hcut.spelled hends hcut.taken), ?_, ?_⟩
  · exact rest_pass (by rw [hrest, List.append_assoc])
  · rw [hcut.pass]
    show t.offset + _ = s.offset + _ + n
    rw [h.offset]
    omega

/-- All tokens are read from the longer text as well, if the last one ends at the seam. -/
theorem Scans.behind (hscans : Scans s ts s') : ∀ {t : Scanner}, Behind n more s t →
    (∀ u ∈ ts.getLast?, u.lexeme.EndsBefore more) →
      ∃ t', Scans t (ts.map (·.shift n)) t' ∧ Behind n more s' t' := by
  induction hscans with
  | refl s => exact fun h _ => ⟨_, .refl _, h⟩
  | @step s s₁ s' u us hnext hscans ih =>
    intro t h hlast
    have hends : u.lexeme.EndsBefore (s₁.rest ++ more) := by
      cases hrest : s₁.rest with
      | cons c cs =>
        obtain ⟨ws, xs, hcut⟩ := exists_cuts hnext
        have hends := hcut.ends
        rw [hrest] at hends
        exact hends
      | nil =>
        -- no character is left for another token
        cases hscans with
        | refl _ => exact hlast u rfl
        | step hnext' _ => simpa [hrest] using length_rest_of_next hnext'
    obtain ⟨t₁, ht₁, h₁⟩ := h.next hnext hends
    obtain ⟨t', hscans', h'⟩ := ih h₁ fun w hw => hlast w (by
      rw [List.getLast?_cons, Option.mem_def.1 hw]
      rfl)
    exact ⟨t', .step ht₁ hscans', h'⟩

end Behind

section Scans

variable {s s' s'' : Scanner} {ts us : List Token}

theorem Scans.append (h : Scans s ts s') (h' : Scans s' us s'') : Scans s (ts ++ us) s'' := by
  induction h with
  | refl s => exact h'
  | step hnext _ ih => exact .step hnext (ih h')

/-- The bytes that were read and those that are left are the bytes of the text. -/
theorem Scans.offset_add (h : Scans s ts s') :
    s'.offset + Text.utf8Length s'.rest = s.offset + Text.utf8Length s.rest := by
  induction h with
  | refl s => rfl
  | step hnext _ ih =>
    obtain ⟨ws, xs, hcut⟩ := exists_cuts hnext
    rw [ih, hcut.rest, hcut.pass, ← List.append_assoc, Text.utf8Length_append, ← Nat.add_assoc]
    rfl

theorem AtEnd.isBlank (h : s.AtEnd) : ∀ c ∈ s.rest, Text.isBlank c = true := by
  have hsplit := List.takeWhile_append_dropWhile (p := Text.isBlank) (l := s.rest)
  rw [h, List.append_nil] at hsplit
  exact fun c hc => List.all_eq_true.1 List.all_takeWhile c (hsplit ▸ hc)

/-- What is read behind blanks is read in front of them. -/
theorem Scans.of_pass {ws rest : List Char} (hws : ∀ c ∈ ws, Text.isBlank c = true)
    (hrest : s.rest = ws ++ rest) (h : Scans (s.pass ws) ts s') :
    ∃ s'', Scans s ts s'' ∧ s''.next = s'.next := by
  have hsame := next_pass_blanks hws hrest
  cases h with
  | refl _ => exact ⟨s, .refl s, hsame.symm⟩
  | step hnext hscans => exact ⟨s', .step (hsame ▸ hnext) hscans, rfl⟩

end Scans

end Scanner

open Scanner

/-- The error in a text that was moved by a number of bytes. -/
def LexError.shift (e : LexError) (n : Int) : LexError :=
  match e with
  | invalidToken text span => invalidToken text (span.shift n)
  | literalOverflow digits span => literalOverflow digits (span.shift n)
  | digitLimit digits => digitLimit digits

/-- What a text is cut into when it is moved by a number of bytes. -/
def shiftTokens (outcome : Except LexError (List Token)) (n : Int) : Except LexError (List Token) :=
  match outcome with
  | .ok ts => .ok (ts.map (·.shift n))
  | .error e => .error (e.shift n)

namespace Scanner

theorem numeral_shift (digits : List Char) (span : Span) (n : Int) :
    numeral digits (span.shift n) = (numeral digits span).mapError (·.shift n) := by
  unfold numeral
  dsimp only
  split
  · rfl
  · split
    · rfl
    · split <;> rfl

/-- What a piece spells does not depend on its place, and its error moves with it. -/
theorem spelled_shift (first : Char) (tail : List Char) (span : Span) (n : Int) :
    spelled first tail (span.shift n) = (spelled first tail span).mapError (·.shift n) := by
  unfold spelled
  split
  · exact numeral_shift _ _ _
  · split
    · rfl
    · unfold sign
      split <;> rfl

/-- In front of what does not go on with it, the longest run of a kind ends where it did. -/
theorem takeWhile_append_of_head? {p : Char → Bool} {more : List Char}
    (hmore : ∀ c ∈ more.head?, p c = false) (cs : List Char) :
    (cs ++ more).takeWhile p = cs.takeWhile p := by
  induction cs with
  | nil => exact takeWhile_append_of_ends nofun hmore
  | cons c cs ih =>
    by_cases hc : p c = true
    · rw [List.cons_append, List.takeWhile_cons_of_pos hc, ih, List.takeWhile_cons_of_pos hc]
    · rw [List.cons_append, List.takeWhile_cons_of_neg hc, List.takeWhile_cons_of_neg hc]

/-- No piece goes on into a blank. -/
theorem pieceTail_append {more : List Char} (hmore : ∀ c ∈ more.head?, Text.isBlank c = true)
    (first : Char) (rest : List Char) : pieceTail first (rest ++ more) = pieceTail first rest := by
  unfold pieceTail
  split
  · exact takeWhile_append_of_head? (fun c hc => Text.isDigit_of_isBlank (hmore c hc)) rest
  · split
    · exact takeWhile_append_of_head? (fun c hc => Text.isAlphanum_of_isBlank (hmore c hc)) rest
    · split
      · cases rest with
        | nil =>
          refine take_takeWhile_eq_nil_iff.2 fun c hc => ?_
          exact decide_eq_false (Text.ne_equals_of_isBlank (hmore c hc))
        | cons c rest => rfl
      · rfl

/-- An error in front of a blank, or of nothing, comes up in the longer text as well. -/
theorem Behind.fails {n : Nat} {more : List Char} {s t : Scanner} {e : LexError}
    (h : Behind n more s t) (hmore : ∀ c ∈ more.head?, Text.isBlank c = true)
    (hfails : s.Fails e) : t.Fails (e.shift n) := by
  obtain ⟨after, hnext⟩ := hfails
  obtain ⟨first, rest, hrest, hspelled, -⟩ := next_eq_error.1 hnext
  have hshort : (s.rest.takeWhile Text.isBlank).length ≠ s.rest.length := by
    have hsplit := congrArg List.length
      (List.takeWhile_append_dropWhile (p := Text.isBlank) (l := s.rest))
    rw [hrest, List.length_append, List.length_cons] at hsplit
    omega
  have hblanks : t.rest.takeWhile Text.isBlank = s.rest.takeWhile Text.isBlank := by
    rw [h.rest, List.takeWhile_append, if_neg hshort]
  have hrest' : t.rest.dropWhile Text.isBlank = first :: (rest ++ more) := by
    rw [h.rest, List.dropWhile_append, hrest]
    rfl
  have hspan : t.pieceSpan (t.rest.takeWhile Text.isBlank) (first :: pieceTail first rest) =
      (s.pieceSpan (s.rest.takeWhile Text.isBlank) (first :: pieceTail first rest)).shift n := by
    rw [hblanks]
    simp only [pieceSpan, Span.shift, h.offset, Span.mk.injEq]
    omega
  refine ⟨_, next_eq_error.2 ⟨first, rest ++ more, hrest', ?_, rfl⟩⟩
  rw [pieceTail_append hmore, hspan, spelled_shift, hspelled]
  rfl

end Scanner

/-- Texts that are put together are cut as each is, the second one moved by the bytes of the first,
if the second does not go on with the last token of the first. -/
theorem tokens_append_eq {a b : String} {ts : List Token} (ha : tokens a = .ok ts)
    (hseam : ∀ t ∈ ts.getLast?, t.lexeme.EndsBefore b.toList) :
    tokens (a ++ b) = (shiftTokens (tokens b) (Text.utf8Length a.toList)).map (ts ++ ·) := by
  obtain ⟨s, hscans, hend⟩ := tokens_eq_ok.1 ha
  -- the first text stands where it stood, in front of the second
  have hstart : Behind 0 b.toList (.start a.toList) (.start (a ++ b).toList) :=
    ⟨String.toList_append, rfl⟩
  obtain ⟨t, hfirst, ht⟩ := hscans.behind hstart hseam
  have hmap : ts.map (·.shift ((0 : Nat) : Int)) = ts := by
    simp [Token.shift, Span.shift]
  rw [hmap] at hfirst
  -- the second text stands behind the blanks at the end of the first
  have hoffset : (t.pass s.rest).offset = Text.utf8Length a.toList := by
    show t.offset + Text.utf8Length s.rest = _
    rw [ht.offset, Nat.add_zero, hscans.offset_add]
    exact Nat.zero_add _
  have hmiddle : Behind (Text.utf8Length a.toList) [] (.start b.toList) (t.pass s.rest) :=
    ⟨by rw [rest_pass ht.rest, List.append_nil]; rfl, hoffset.trans (Nat.zero_add _).symm⟩
  have hlast : ∀ (us : List Token), ∀ u ∈ us.getLast?, u.lexeme.EndsBefore [] := by
    intro us u _ c hc
    cases hc
  cases hb : tokens b with
  | ok us =>
    obtain ⟨s', hscans', hend'⟩ := tokens_eq_ok.1 hb
    obtain ⟨t', hsecond, ht'⟩ := hscans'.behind hmiddle (hlast us)
    have hend'' : t'.AtEnd := by
      unfold AtEnd
      rw [ht'.rest, List.append_nil]
      exact hend'
    obtain ⟨t'', hsecond, hsame⟩ := hsecond.of_pass hend.isBlank ht.rest
    exact tokens_of_atEnd (hfirst.append hsecond)
      (next_eq_none.1 (hsame.trans (next_of_nil hend''))).1
  | error e =>
    obtain ⟨us, s', hscans', hfails⟩ := tokens_eq_error.1 hb
    obtain ⟨t', hsecond, ht'⟩ := hscans'.behind hmiddle (hlast us)
    have hnone : ∀ c ∈ ([] : List Char).head?, Text.isBlank c = true := by
      intro c hc
      cases hc
    obtain ⟨after, hfails'⟩ := ht'.fails hnone hfails
    obtain ⟨t'', hsecond, hsame⟩ := hsecond.of_pass hend.isBlank ht.rest
    exact tokens_of_fails (hfirst.append hsecond) ⟨after, hsame.trans hfails'⟩

/-- Texts that are put together are cut into the tokens of both, if the second does not go on with
the last token of the first. -/
theorem tokens_append {a b : String} {ts us : List Token} (ha : tokens a = .ok ts)
    (hb : tokens b = .ok us) (hseam : ∀ t ∈ ts.getLast?, t.lexeme.EndsBefore b.toList) :
    tokens (a ++ b) = .ok (ts ++ us.map (·.shift (Text.utf8Length a.toList))) := by
  rw [tokens_append_eq ha hseam, hb]
  rfl

end Imp32
