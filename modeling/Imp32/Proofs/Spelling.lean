import Imp32.Proofs.Numerals
import Imp32.Proofs.Text.Letters

/-!
# What a text spells

`Spells cs ls` says that the characters spell the lexemes, piece by piece and without a word of the
scanner's positions. The scanner reads exactly the lexemes that its text spells
(`tokens_iff_spells`), and nothing but numbers in range and names that are no keywords comes from
a text (`Spells.proper`).
-/

namespace Imp32

/-! ## Proper lexemes -/

/-- A name: an ASCII letter, then ASCII letters and digits, and no keyword. -/
structure IsName (name : String) : Prop where
  letters : ∃ first rest, name.toList = first :: rest ∧ first.isAlpha = true ∧
    ∀ c ∈ rest, c.isAlphanum = true
  ne_if : name ≠ "if"
  ne_while : name ≠ "while"
  ne_for : name ≠ "for"

def IsLiteral (n : Int) : Prop := 0 ≤ n ∧ n ≤ Word.maxValue

def Lexeme.Proper : Lexeme → Prop
  | num n => IsLiteral n
  | ident name => IsName name
  | _ => True

/-- A text that spells a sign does not begin with a letter. -/
theorem BinaryOp.symbol_ne {op : BinaryOp} {name : String} {first : Char} {rest : List Char}
    (hname : name.toList = first :: rest) (hfirst : first.isAlpha = true) : op.symbol ≠ name := by
  rintro rfl
  cases op <;> cases hname <;> revert hfirst <;> decide

/-- A name is not the spelling of a keyword or a sign. -/
theorem IsName.ofSpelling? {name : String} (h : IsName name) : Lexeme.ofSpelling? name = none := by
  obtain ⟨first, rest, hname, hfirst, -⟩ := h.letters
  refine List.find?_eq_none.2 fun l _ => ?_
  have hsign : ∀ c : Char, c.isAlpha = false → ∀ s : String, s.toList = [c] → s ≠ name := by
    rintro c hc s hs rfl
    rw [hs] at hname
    cases hname
    rw [hfirst] at hc
    cases hc
  rw [decide_eq_true_eq]
  cases l with
  | op op =>
    intro hop
    exact BinaryOp.symbol_ne hname hfirst (Option.some.inj hop)
  | num _ => exact nofun
  | ident _ => exact nofun
  | leftParen => exact fun h => hsign '(' (by decide) "(" rfl (Option.some.inj h)
  | rightParen => exact fun h => hsign ')' (by decide) ")" rfl (Option.some.inj h)
  | leftBrace => exact fun h => hsign '\x7b' (by decide) "\x7b" rfl (Option.some.inj h)
  | rightBrace => exact fun h => hsign '\x7d' (by decide) "\x7d" rfl (Option.some.inj h)
  | semicolon => exact fun h => hsign ';' (by decide) ";" rfl (Option.some.inj h)
  | ifWord => exact fun hif => h.ne_if (Option.some.inj hif).symm
  | whileWord => exact fun hwhile => h.ne_while (Option.some.inj hwhile).symm
  | forWord => exact fun hfor => h.ne_for (Option.some.inj hfor).symm

/-- What has only one spelling is proper. -/
theorem Lexeme.proper_of_ofSpelling? {text : String} {l : Lexeme}
    (h : Lexeme.ofSpelling? text = some l) : l.Proper := by
  have hl := List.find?_some h
  rw [decide_eq_true_eq] at hl
  cases l with
  | num _ => cases hl
  | ident _ => cases hl
  | _ => trivial

/-! ## Spelling -/

open Scanner in
/-- The characters spell the lexemes: blanks aside, each longest piece spells the next one. -/
inductive Spells : List Char → List Lexeme → Prop
  | nil : Spells [] []
  | blank {c : Char} {cs : List Char} {ls : List Lexeme} (hc : Text.isBlank c = true)
      (h : Spells cs ls) : Spells (c :: cs) ls
  | piece {first : Char} {rest : List Char} {l : Lexeme} {ls : List Lexeme}
      (hfirst : Text.isBlank first = false)
      (hl : ∀ span, spelled first (pieceTail first rest) span = .ok l)
      (h : Spells (rest.drop (pieceTail first rest).length) ls) : Spells (first :: rest) (l :: ls)

namespace Scanner

/-- The span of a piece shows in its error only. -/
theorem spelled_congr {first : Char} {tail : List Char} {span : Span} {l : Lexeme}
    (h : spelled first tail span = .ok l) (span' : Span) : spelled first tail span' = .ok l := by
  unfold spelled at h ⊢
  split
  · rename_i hdigit
    rw [if_pos hdigit] at h
    unfold numeral at h ⊢
    dsimp only at h ⊢
    split at h
    · cases h
    · split at h
      · cases h
      · split at h
        · cases h
        · rename_i h₁ h₂ h₃
          rw [if_neg h₁, if_neg h₂, if_neg h₃]
          exact h
  · rename_i hdigit
    rw [if_neg hdigit] at h
    split
    · rename_i halpha
      rwa [if_pos halpha] at h
    · rename_i halpha
      rw [if_neg halpha] at h
      unfold sign at h ⊢
      split at h
      · exact h
      · cases h

theorem numeral_proper {digits : List Char} {span : Span} {l : Lexeme}
    (h : numeral digits span = .ok l) : l.Proper := by
  unfold numeral at h
  dsimp only at h
  split at h
  · cases h
  · split at h
    · cases h
    · split at h
      · cases h
      · rename_i hvalue
        cases h
        exact ⟨Int.natCast_nonneg _, Int.ofNat_le.2 (Nat.not_lt.1 hvalue)⟩

/-- The tail of a word holds letters and digits only. -/
theorem isAlphanum_of_mem_pieceTail {first c : Char} {rest : List Char}
    (hfirst : first.isAlpha = true) (hc : c ∈ pieceTail first rest) : c.isAlphanum = true := by
  unfold pieceTail at hc
  rw [if_neg (Text.isDigit_of_isAlpha hfirst), if_pos hfirst] at hc
  exact List.all_eq_true.1 List.all_takeWhile c hc

/-- A word is a keyword or a name. -/
theorem word_proper {letters : List Char}
    (h : ∃ first rest, letters = first :: rest ∧ first.isAlpha = true ∧
      ∀ c ∈ rest, c.isAlphanum = true) : (word letters).Proper := by
  unfold word
  cases hspell : Lexeme.ofSpelling? (String.ofList letters) with
  | some l => exact Lexeme.proper_of_ofSpelling? hspell
  | none =>
    have hne : ∀ keyword, (Lexeme.ofSpelling? keyword).isSome → String.ofList letters ≠ keyword := by
      rintro keyword hkeyword rfl
      rw [hspell] at hkeyword
      cases hkeyword
    refine ⟨?_, hne "if" (by decide), hne "while" (by decide), hne "for" (by decide)⟩
    rwa [String.toList_ofList]

theorem spelled_proper {first : Char} {rest : List Char} {span : Span} {l : Lexeme}
    (h : spelled first (pieceTail first rest) span = .ok l) : l.Proper := by
  unfold spelled at h
  split at h
  · exact numeral_proper h
  · split at h
    · rename_i halpha
      cases h
      exact word_proper ⟨first, _, rfl, halpha, fun _ hc => isAlphanum_of_mem_pieceTail halpha hc⟩
    · unfold sign at h
      split at h
      · rename_i hspell
        cases h
        exact Lexeme.proper_of_ofSpelling? hspell
      · cases h

end Scanner

namespace Spells

variable {cs rest : List Char} {ls : List Lexeme}

/-- Leading blanks do not matter. -/
theorem dropWhile_iff : Spells (cs.dropWhile Text.isBlank) ls ↔ Spells cs ls := by
  induction cs with
  | nil => rfl
  | cons c cs ih =>
    by_cases hc : Text.isBlank c = true
    · rw [List.dropWhile_cons_of_pos hc, ih]
      constructor
      · exact .blank hc
      · intro h
        cases h with
        | blank _ h => exact h
        | piece hfirst _ _ => simp [hc] at hfirst
    · rw [List.dropWhile_cons_of_neg hc]

/-- What is spelled by a text without leading blanks. -/
theorem cons_iff {first : Char} (hfirst : Text.isBlank first = false) :
    Spells (first :: rest) ls ↔ ∃ l ls', ls = l :: ls' ∧
      (∀ span, Scanner.spelled first (Scanner.pieceTail first rest) span = .ok l) ∧
      Spells (rest.drop (Scanner.pieceTail first rest).length) ls' := by
  constructor
  · intro h
    cases h with
    | blank hc _ => simp [hc] at hfirst
    | piece _ hl h => exact ⟨_, _, rfl, hl, h⟩
  · rintro ⟨l, ls', rfl, hl, h⟩
    exact .piece hfirst hl h

/-- Only proper lexemes are spelled. -/
theorem proper (h : Spells cs ls) : ∀ l ∈ ls, l.Proper := by
  induction h with
  | nil => exact nofun
  | blank _ _ ih => exact ih
  | piece _ hl _ ih =>
    intro l hmem
    rcases List.mem_cons.1 hmem with rfl | hmem
    · exact Scanner.spelled_proper (hl .none)
    · exact ih l hmem

end Spells

namespace Scanner

/-! ## The scanner reads what is spelled -/

/-- The tokens that the scanner reads on its way are spelled by what it passes. -/
theorem Scans.spells {s s' : Scanner} {ts : List Token} {ls : List Lexeme} (h : Scans s ts s')
    (hrest : Spells s'.rest ls) : Spells s.rest (ts.map Token.lexeme ++ ls) := by
  induction h with
  | refl s => exact hrest
  | step hnext _ ih =>
    obtain ⟨first, rest, hfirst, hl, -, rfl⟩ := next_eq_some.1 hnext
    have ih := ih hrest
    rw [rest_pass_piece hfirst] at ih
    refine Spells.dropWhile_iff.1 ?_
    rw [hfirst]
    exact .piece (dropWhile_eq_cons hfirst).1 (spelled_congr hl) ih

/-- What is spelled is read. -/
theorem exists_scans_of_spells {ls : List Lexeme} : ∀ (s : Scanner), Spells s.rest ls →
    ∃ ts s', Scans s ts s' ∧ s'.AtEnd ∧ ts.map Token.lexeme = ls := by
  induction ls with
  | nil =>
    intro s h
    refine ⟨[], s, .refl s, ?_, rfl⟩
    have h := Spells.dropWhile_iff.2 h
    cases hrest : s.rest.dropWhile Text.isBlank with
    | nil => exact hrest
    | cons first rest =>
      rw [hrest, Spells.cons_iff (dropWhile_eq_cons hrest).1] at h
      obtain ⟨l, ls', hls, -⟩ := h
      cases hls
  | cons l ls ih =>
    intro s h
    have h := Spells.dropWhile_iff.2 h
    cases hrest : s.rest.dropWhile Text.isBlank with
    | nil =>
      rw [hrest] at h
      cases h
    | cons first rest =>
      rw [hrest, Spells.cons_iff (dropWhile_eq_cons hrest).1] at h
      obtain ⟨l', ls', hls, hl, hls'⟩ := h
      cases hls
      have hnext := (next_eq_some (t := ⟨l, s.pieceSpan _ _⟩)).2
        ⟨first, rest, hrest, hl _, rfl, rfl⟩
      rw [← rest_pass_piece hrest] at hls'
      obtain ⟨ts, s', hscans, hend, rfl⟩ := ih _ hls'
      exact ⟨_, s', .step hnext hscans, hend, rfl⟩

end Scanner

/-- A text is cut into tokens of just the lexemes that it spells. -/
theorem tokens_iff_spells {source : String} {ls : List Lexeme} :
    (∃ ts, tokens source = .ok ts ∧ ts.map Token.lexeme = ls) ↔ Spells source.toList ls := by
  constructor
  · rintro ⟨ts, h, rfl⟩
    obtain ⟨s, hscans, hend⟩ := Scanner.tokens_eq_ok.1 h
    have hrest : Spells (s.rest.dropWhile Text.isBlank) [] := by
      rw [hend]
      exact .nil
    have := hscans.spells (Spells.dropWhile_iff.1 hrest)
    rwa [List.append_nil] at this
  · intro h
    obtain ⟨ts, s, hscans, hend, hls⟩ := Scanner.exists_scans_of_spells (.start source.toList) h
    exact ⟨ts, Scanner.tokens_eq_ok.2 ⟨s, hscans, hend⟩, hls⟩

end Imp32
