import Imp32.Token.Scanner

/-!
# How the scanner moves

One step of the scanner passes the blanks and the longest piece behind them (`next_of_cons`), and
at the end only blanks (`next_of_nil`). `Scans s ts s'` says that the scanner reads these tokens on
its way from one place to another. Every text is scanned up to its end or up to an error
(`exists_scans`), and what becomes of the whole text is what becomes of it there (`tokens_eq_ok`,
`tokens_eq_error`).
-/

namespace Imp32.Scanner

/-! ## Longest runs -/

/-- In front of what does not go on with it, a run of characters of a kind is the longest. -/
theorem takeWhile_append_of_ends {p : Char → Bool} {run rest : List Char}
    (hrun : ∀ c ∈ run, p c = true) (hrest : ∀ c ∈ rest.head?, p c = false) :
    (run ++ rest).takeWhile p = run := by
  rw [List.takeWhile_append_of_pos hrun]
  cases rest with
  | nil => exact List.append_nil run
  | cons c rest => rw [List.takeWhile_cons_of_neg (by simp [hrest c rfl]), List.append_nil]

theorem drop_length_takeWhile (p : Char → Bool) (cs : List Char) :
    cs.drop (cs.takeWhile p).length = cs.dropWhile p := by
  conv =>
    lhs
    arg 2
    rw [← List.takeWhile_append_dropWhile (p := p) (l := cs)]
  rw [List.drop_left]

/-- Behind the longest run of characters of a kind stands none of them. -/
theorem head?_drop_takeWhile (p : Char → Bool) (cs : List Char) :
    ∀ c ∈ (cs.drop (cs.takeWhile p).length).head?, p c = false := by
  intro c hc
  have := List.head?_dropWhile_not p cs
  rw [← drop_length_takeWhile, hc] at this
  simpa using this

/-- The tail of a piece stands at the front of what is behind its first character. -/
theorem pieceTail_append_drop (first : Char) (rest : List Char) :
    pieceTail first rest ++ rest.drop (pieceTail first rest).length = rest := by
  have hprefix : pieceTail first rest <+: rest := by
    unfold pieceTail
    split
    · exact List.takeWhile_prefix _
    · split
      · exact List.takeWhile_prefix _
      · split
        · exact (List.takeWhile_prefix _).trans (List.take_prefix 1 rest)
        · exact List.nil_prefix
  exact (List.prefix_iff_eq_append.1 hprefix)

/-! ## Passing characters -/

theorem pass_pass (s : Scanner) (cs ds : List Char) : (s.pass cs).pass ds = s.pass (cs ++ ds) := by
  unfold pass
  simp only [List.drop_drop, List.length_append, Text.utf8Length_append, Nat.add_assoc]

/-- What stands behind the characters that were passed. -/
theorem rest_pass {s : Scanner} {cs rest : List Char} (h : s.rest = cs ++ rest) :
    (s.pass cs).rest = rest := by
  show s.rest.drop cs.length = rest
  rw [h, List.drop_left]

theorem rest_skipBlanks (s : Scanner) : s.skipBlanks.rest = s.rest.dropWhile Text.isBlank :=
  rest_pass (List.takeWhile_append_dropWhile).symm

/-- The range of bytes of a piece behind blanks. -/
def pieceSpan (s : Scanner) (blanks piece : List Char) : Span :=
  ⟨s.offset + Text.utf8Length blanks, s.offset + Text.utf8Length (blanks ++ piece)⟩

/-! ## One step -/

/-- Nothing but blanks is left. -/
def AtEnd (s : Scanner) : Prop := s.rest.dropWhile Text.isBlank = []

section Step

variable {s s' : Scanner} {first : Char} {rest : List Char}

theorem next_of_nil (h : s.AtEnd) : s.next = .ok none s.skipBlanks := by
  unfold next
  dsimp only
  rw [rest_skipBlanks, h]

/-- The piece behind the blanks is passed, whether it spells a token or not. -/
theorem next_of_cons (h : s.rest.dropWhile Text.isBlank = first :: rest) :
    s.next =
      let blanks := s.rest.takeWhile Text.isBlank
      let piece := first :: pieceTail first rest
      match spelled first (pieceTail first rest) (s.pieceSpan blanks piece) with
      | .ok l => .ok (some ⟨l, s.pieceSpan blanks piece⟩) (s.pass (blanks ++ piece))
      | .error e => .error e (s.pass (blanks ++ piece)) := by
  have hpass : s.skipBlanks.pass (first :: pieceTail first rest) =
      s.pass (s.rest.takeWhile Text.isBlank ++ first :: pieceTail first rest) :=
    pass_pass s _ _
  have hspan : (⟨s.skipBlanks.offset, (s.skipBlanks.pass (first :: pieceTail first rest)).offset⟩ :
      Span) = s.pieceSpan (s.rest.takeWhile Text.isBlank) (first :: pieceTail first rest) := by
    rw [hpass]
    rfl
  unfold next
  dsimp only
  rewrite [rest_skipBlanks, h]
  dsimp only
  rewrite [hspan, hpass]
  rfl

/-- What stands behind the leading blanks begins with no blank and is no longer. -/
theorem dropWhile_eq_cons {cs : List Char} (h : cs.dropWhile Text.isBlank = first :: rest) :
    Text.isBlank first = false ∧ rest.length < cs.length := by
  constructor
  · have := List.head?_dropWhile_not Text.isBlank cs
    rw [h] at this
    simpa using this
  · have := (List.dropWhile_sublist (l := cs) Text.isBlank).length_le
    rwa [h, List.length_cons] at this

/-- The blanks and the piece behind them stand at the front of what is left. -/
theorem rest_eq_piece (h : s.rest.dropWhile Text.isBlank = first :: rest) :
    s.rest = (s.rest.takeWhile Text.isBlank ++ first :: pieceTail first rest) ++
      rest.drop (pieceTail first rest).length := by
  rw [List.append_assoc, List.cons_append, pieceTail_append_drop, ← h,
    List.takeWhile_append_dropWhile]

/-- Behind the longest piece of a text stands what the piece does not take. -/
theorem rest_pass_piece (h : s.rest.dropWhile Text.isBlank = first :: rest) :
    (s.pass (s.rest.takeWhile Text.isBlank ++ first :: pieceTail first rest)).rest =
      rest.drop (pieceTail first rest).length :=
  rest_pass (rest_eq_piece h)

/-- Nothing is read just at the end. -/
theorem next_eq_none : s.next = .ok none s' ↔ s.AtEnd ∧ s' = s.skipBlanks := by
  cases h : s.rest.dropWhile Text.isBlank with
  | nil =>
    rw [next_of_nil h]
    constructor
    · rintro ⟨⟩
      exact ⟨h, rfl⟩
    · rintro ⟨-, rfl⟩
      rfl
  | cons first rest =>
    have hnot : ¬s.AtEnd := by simp [AtEnd, h]
    rw [next_of_cons h]
    dsimp only
    split <;> simp [hnot]

/-- A token is what the piece behind the blanks spells, with the range of its bytes. -/
theorem next_eq_some {t : Token} :
    s.next = .ok (some t) s' ↔ ∃ first rest, s.rest.dropWhile Text.isBlank = first :: rest ∧
      spelled first (pieceTail first rest) t.span = .ok t.lexeme ∧
      t.span = s.pieceSpan (s.rest.takeWhile Text.isBlank) (first :: pieceTail first rest) ∧
      s' = s.pass (s.rest.takeWhile Text.isBlank ++ first :: pieceTail first rest) := by
  constructor
  · intro h
    cases hrest : s.rest.dropWhile Text.isBlank with
    | nil =>
      rw [next_of_nil hrest] at h
      cases h
    | cons first rest =>
      rw [next_of_cons hrest] at h
      dsimp only at h
      split at h
      · rename_i hl
        cases h
        exact ⟨first, rest, rfl, hl, rfl, rfl⟩
      · cases h
  · rintro ⟨first, rest, hrest, hl, hspan, rfl⟩
    rw [next_of_cons hrest]
    dsimp only
    rw [← hspan, hl]

/-- An error is one of the piece behind the blanks, which is passed all the same. -/
theorem next_eq_error {e : LexError} :
    s.next = .error e s' ↔ ∃ first rest, s.rest.dropWhile Text.isBlank = first :: rest ∧
      spelled first (pieceTail first rest)
        (s.pieceSpan (s.rest.takeWhile Text.isBlank) (first :: pieceTail first rest)) = .error e ∧
      s' = s.pass (s.rest.takeWhile Text.isBlank ++ first :: pieceTail first rest) := by
  constructor
  · intro h
    cases hrest : s.rest.dropWhile Text.isBlank with
    | nil =>
      rw [next_of_nil hrest] at h
      cases h
    | cons first rest =>
      rw [next_of_cons hrest] at h
      dsimp only at h
      split at h
      · cases h
      · rename_i he
        cases h
        exact ⟨first, rest, rfl, he, rfl⟩
  · rintro ⟨first, rest, hrest, he, rfl⟩
    rw [next_of_cons hrest]
    dsimp only
    rw [he]

/-- Blanks in front may be passed before. -/
theorem next_pass_blanks {ws : List Char} (hws : ∀ c ∈ ws, Text.isBlank c = true)
    (hrest : s.rest = ws ++ rest) : (s.pass ws).next = s.next := by
  have hskip : (s.pass ws).skipBlanks = s.skipBlanks := by
    unfold skipBlanks
    rw [pass_pass, rest_pass hrest, hrest, List.takeWhile_append_of_pos hws]
  unfold next
  rw [hskip]

/-- A token takes characters. -/
theorem length_rest_of_next {t : Token} (h : s.next = .ok (some t) s') :
    s'.rest.length < s.rest.length := by
  obtain ⟨first, rest, hrest, -, -, rfl⟩ := next_eq_some.1 h
  have hshort := (dropWhile_eq_cons hrest).2
  rw [rest_pass_piece hrest, List.length_drop]
  omega

end Step

/-! ## Many steps -/

/-- On its way from one place to the other the scanner reads these tokens. -/
inductive Scans : Scanner → List Token → Scanner → Prop
  | refl (s : Scanner) : Scans s [] s
  | step {s s' s'' : Scanner} {t : Token} {ts : List Token} :
    s.next = .ok (some t) s' → Scans s' ts s'' → Scans s (t :: ts) s''

def Fails (s : Scanner) (e : LexError) : Prop := ∃ after, s.next = .error e after

/-- Every text is scanned up to its end or up to an error. -/
theorem exists_scans (s : Scanner) :
    ∃ ts s', Scans s ts s' ∧ (s'.AtEnd ∨ ∃ e, s'.Fails e) := by
  induction hn : s.rest.length using Nat.strongRecOn generalizing s with
  | ind n ih =>
    cases hnext : s.next with
    | error e after => exact ⟨[], s, .refl s, .inr ⟨e, after, hnext⟩⟩
    | ok t s₁ =>
      cases t with
      | none => exact ⟨[], s, .refl s, .inl (next_eq_none.1 hnext).1⟩
      | some t =>
        obtain ⟨ts, s', hscans, hend⟩ := ih _ (hn ▸ length_rest_of_next hnext) s₁ rfl
        exact ⟨t :: ts, s', .step hnext hscans, hend⟩

/-- Tokens that the scanner reads on its way are put behind those that have been read. -/
theorem toEnd_of_scans {s s' : Scanner} {ts : List Token} (h : Scans s ts s') :
    ∀ (count : List Char) (done : List Token), s.rest.length ≤ count.length →
      ∃ count' : List Char, s'.rest.length ≤ count'.length ∧
        toEnd count s done = toEnd count' s' (ts.reverse ++ done) := by
  induction h with
  | refl s => exact fun count done hlen => ⟨count, hlen, rfl⟩
  | @step s s₁ s' t ts hnext _ ih =>
    intro count done hlen
    have hshort := length_rest_of_next hnext
    cases count with
    | nil => exact absurd (Nat.lt_of_lt_of_le hshort hlen) (Nat.not_lt_zero _)
    | cons k count =>
      obtain ⟨count', hlen', htoEnd⟩ := ih count (t :: done)
        (Nat.le_of_lt_succ (Nat.lt_of_lt_of_le hshort hlen))
      refine ⟨count', hlen', ?_⟩
      rw [List.reverse_cons, List.append_assoc, List.singleton_append, ← htoEnd]
      conv =>
        lhs
        unfold toEnd
      rw [hnext]

/-- The scanner passes characters from the front. -/
theorem Scans.suffix {s s' : Scanner} {ts : List Token} (h : Scans s ts s') :
    s'.rest <:+ s.rest := by
  induction h with
  | refl s => exact List.suffix_refl _
  | step hnext _ ih =>
    obtain ⟨first, rest, -, -, -, rfl⟩ := next_eq_some.1 hnext
    exact ih.trans (List.drop_suffix _ _)

section Tokens

variable {source : String} {ts : List Token} {s : Scanner} {e : LexError}

theorem tokens_of_atEnd (h : Scans (.start source.toList) ts s) (hend : s.AtEnd) :
    tokens source = .ok ts := by
  obtain ⟨count, -, htoEnd⟩ := toEnd_of_scans h source.toList [] (Nat.le_refl _)
  unfold tokens
  rw [htoEnd]
  unfold toEnd
  rw [next_of_nil hend]
  simp

theorem tokens_of_fails (h : Scans (.start source.toList) ts s) (hfails : s.Fails e) :
    tokens source = .error e := by
  obtain ⟨count, -, htoEnd⟩ := toEnd_of_scans h source.toList [] (Nat.le_refl _)
  obtain ⟨after, hnext⟩ := hfails
  unfold tokens
  rw [htoEnd]
  unfold toEnd
  rw [hnext]

/-- A text is cut into the tokens that the scanner reads on its way to the end. -/
theorem tokens_eq_ok :
    tokens source = .ok ts ↔ ∃ s, Scans (.start source.toList) ts s ∧ s.AtEnd := by
  constructor
  · intro h
    obtain ⟨us, s, hscans, hend | ⟨e, hfails⟩⟩ := exists_scans (.start source.toList)
    · rw [tokens_of_atEnd hscans hend] at h
      cases h
      exact ⟨s, hscans, hend⟩
    · rw [tokens_of_fails hscans hfails] at h
      cases h
  · rintro ⟨s, hscans, hend⟩
    exact tokens_of_atEnd hscans hend

/-- A text fails with the error at which the scanner arrives. -/
theorem tokens_eq_error :
    tokens source = .error e ↔ ∃ ts s, Scans (.start source.toList) ts s ∧ s.Fails e := by
  constructor
  · intro h
    obtain ⟨us, s, hscans, hend | ⟨e', hfails⟩⟩ := exists_scans (.start source.toList)
    · rw [tokens_of_atEnd hscans hend] at h
      cases h
    · rw [tokens_of_fails hscans hfails] at h
      cases h
      exact ⟨us, s, hscans, hfails⟩
  · rintro ⟨ts, s, hscans, hfails⟩
    exact tokens_of_fails hscans hfails

end Tokens

end Imp32.Scanner
