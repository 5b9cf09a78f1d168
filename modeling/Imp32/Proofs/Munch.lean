import Imp32.Proofs.RoundTrip

/-!
# Maximal munch

`Tokenizes offset cs ts` cuts characters into blanks and spellings without a word of the scanner:
every token stands between blanks, is spelled by its characters, has the range of their bytes and
is not directly followed by a character that would go on with it. As long as no run of digits is
longer than the number reader takes, a text is cut into tokens in at most one such way, which is
the one the scanner finds, and without one the scanner fails with a fault (`tokens_iff_tokenizes`).
-/

namespace Imp32

open Scanner

/-! ## Spellings -/

/-- The characters spell the lexeme. -/
inductive Lexeme.SpelledBy : Lexeme → List Char → Prop
  /-- A sign or a keyword is written as it is. -/
  | fixed {l : Lexeme} {text : String} : l.spelling? = some text → SpelledBy l text.toList
  /-- A number is written in decimal, perhaps with leading zeros. -/
  | num {digits : List Char} : digits ≠ [] → (∀ c ∈ digits, c.isDigit = true) →
      Text.decimalValue digits ≤ Word.maxValue →
        SpelledBy (.num (Text.decimalValue digits)) digits
  /-- A name is written as it is. -/
  | ident {name : String} : IsName name → SpelledBy (.ident name) name.toList

theorem Lexeme.SpelledBy.ne_nil {l : Lexeme} {xs : List Char} (h : l.SpelledBy xs) : xs ≠ [] := by
  cases h with
  | fixed hl =>
    cases l with
    | op op => cases hl; cases op <;> decide
    | num _ => cases hl
    | ident _ => cases hl
    | _ => cases hl; decide
  | num hne => exact hne
  | ident hname =>
    obtain ⟨first, rest, hname, -⟩ := hname.letters
    rw [hname]
    exact List.cons_ne_nil _ _

/-- A character that would go on with the lexeme. -/
def Lexeme.goesOnWith : Lexeme → Char → Bool
  | num _, c => c.isDigit
  | ident _, c | ifWord, c | whileWord, c | forWord, c => c.isAlphanum
  | op .assign, c | op .lt, c | op .gt, c => c = '='
  | _, _ => false

def Lexeme.EndsBefore (l : Lexeme) (rest : List Char) : Prop :=
  ∀ c ∈ rest.head?, l.goesOnWith c = false

/-- The characters from this offset on are cut into the tokens. -/
inductive Tokenizes : (offset : Nat) → List Char → List Token → Prop
  | blanks {offset : Nat} {ws : List Char} : (∀ c ∈ ws, Text.isBlank c = true) →
      Tokenizes offset ws []
  | token {offset : Nat} {ws xs rest : List Char} {l : Lexeme} {ts : List Token} :
      (∀ c ∈ ws, Text.isBlank c = true) → l.SpelledBy xs → l.EndsBefore rest →
      Tokenizes (offset + Text.utf8Length (ws ++ xs)) rest ts →
        Tokenizes offset (ws ++ (xs ++ rest))
          (⟨l, ⟨offset + Text.utf8Length ws, offset + Text.utf8Length (ws ++ xs)⟩⟩ :: ts)

/-- The longest run of digits is no longer than the number reader takes. -/
def FewDigits (cs : List Char) : Prop :=
  ∀ ds : List Char, ds <:+: cs → (∀ c ∈ ds, c.isDigit = true) → ds.length ≤ 4300

/-! ## Pieces -/

namespace Scanner

section Pieces

variable {first : Char} {tail rest xs : List Char} {l : Lexeme} {span : Span}

/-- A word in front of what does not go on with it is the longest piece. -/
theorem pieceTail_of_isAlpha (hfirst : first.isAlpha = true)
    (htail : ∀ c ∈ tail, c.isAlphanum = true) (hrest : ∀ c ∈ rest.head?, c.isAlphanum = false) :
    pieceTail first (tail ++ rest) = tail := by
  unfold pieceTail
  rw [if_neg (Text.isDigit_of_isAlpha hfirst), if_pos hfirst, takeWhile_append_of_ends htail hrest]

/-- An equals sign that follows is taken. -/
theorem take_takeWhile_eq_nil_iff :
    (rest.take 1).takeWhile (· = '=') = [] ↔ ∀ c ∈ rest.head?, decide (c = '=') = false := by
  cases rest with
  | nil => simp
  | cons c rest => by_cases hc : c = '=' <;> simp [hc]

/-- What has only one spelling, which begins with a letter, is a keyword. -/
theorem keyword_of_isAlpha {text : String} (hl : l.spelling? = some text)
    (htext : text.toList = first :: tail) (hfirst : first.isAlpha = true) :
    l = .ifWord ∨ l = .whileWord ∨ l = .forWord := by
  have hsign : ∀ c : Char, c.isAlpha = false → [c] ≠ text.toList := by
    rintro c hc hcs
    rw [htext] at hcs
    cases hcs
    rw [hfirst] at hc
    cases hc
  cases l with
  | op op => exact absurd (Option.some.inj hl) (BinaryOp.symbol_ne htext hfirst)
  | num _ => cases hl
  | ident _ => cases hl
  | leftParen => cases hl; exact absurd rfl (hsign '(' (by decide))
  | rightParen => cases hl; exact absurd rfl (hsign ')' (by decide))
  | leftBrace => cases hl; exact absurd rfl (hsign '\x7b' (by decide))
  | rightBrace => cases hl; exact absurd rfl (hsign '\x7d' (by decide))
  | semicolon => cases hl; exact absurd rfl (hsign ';' (by decide))
  | ifWord => exact .inl rfl
  | whileWord => exact .inr (.inl rfl)
  | forWord => exact .inr (.inr rfl)

theorem spelling?_of_ofSpelling? {cs : List Char} (h : Lexeme.ofSpelling? (String.ofList cs) = some l) :
    l.spelling? = some (String.ofList cs) := by
  have := List.find?_some h
  rwa [decide_eq_true_eq] at this

/-- A lexeme with only one spelling is spelled by it. -/
theorem spelledBy_of_spelling? {cs : List Char} (h : l.spelling? = some (String.ofList cs)) :
    l.SpelledBy cs := by
  have := Lexeme.SpelledBy.fixed h
  rwa [String.toList_ofList] at this

/-- A word is spelled by its letters and ends where they end. -/
theorem spelledBy_word (hfirst : first.isAlpha = true) (htail : ∀ c ∈ tail, c.isAlphanum = true)
    (hrest : ∀ c ∈ rest.head?, c.isAlphanum = false) :
    (word (first :: tail)).SpelledBy (first :: tail) ∧ (word (first :: tail)).EndsBefore rest := by
  have hproper := word_proper ⟨first, tail, rfl, hfirst, htail⟩
  unfold word at hproper ⊢
  cases hspell : Lexeme.ofSpelling? (String.ofList (first :: tail)) with
  | some l =>
    have hl := spelling?_of_ofSpelling? hspell
    refine ⟨spelledBy_of_spelling? hl, ?_⟩
    obtain rfl | rfl | rfl := keyword_of_isAlpha hl String.toList_ofList hfirst
    · exact hrest
    · exact hrest
    · exact hrest
  | none =>
    rw [hspell] at hproper
    have := Lexeme.SpelledBy.ident hproper
    rw [String.toList_ofList] at this
    exact ⟨this, hrest⟩

/-- A sign ends with its piece. -/
theorem endsBefore_of_sign (hfirst : ¬first.isAlpha = true)
    (h : l.spelling? = some (String.ofList (first :: pieceTail first rest))) :
    l.EndsBefore (rest.drop (pieceTail first rest).length) := by
  have hcs : ∀ text : String, l.spelling? = some text →
      text.toList = first :: pieceTail first rest := by
    intro text htext
    rw [← Option.some.inj (h.symm.trans htext), String.toList_ofList]
  have hequals : ∀ c : Char, pieceTail c rest = (rest.take 1).takeWhile (· = '=') →
      [c] = first :: pieceTail first rest →
        ∀ d ∈ (rest.drop (pieceTail first rest).length).head?, decide (d = '=') = false := by
    rintro c hc heq
    obtain ⟨rfl, hnil⟩ := List.cons.inj heq
    rw [← hnil]
    exact take_takeWhile_eq_nil_iff.1 (hc ▸ hnil.symm)
  have hletter : ∀ (c : Char) (cs : List Char), c.isAlpha = true →
      c :: cs ≠ first :: pieceTail first rest := by
    rintro c cs hc heq
    rw [(List.cons.inj heq).1] at hc
    exact hfirst hc
  cases l with
  | op op =>
    cases op with
    | assign => exact hequals '=' rfl (hcs _ rfl)
    | lt => exact hequals '<' rfl (hcs _ rfl)
    | gt => exact hequals '>' rfl (hcs _ rfl)
    | _ => exact fun _ _ => rfl
  | num _ => cases h
  | ident _ => cases h
  | ifWord => exact absurd (hcs _ rfl) (hletter 'i' _ (by decide))
  | whileWord => exact absurd (hcs _ rfl) (hletter 'w' _ (by decide))
  | forWord => exact absurd (hcs _ rfl) (hletter 'f' _ (by decide))
  | _ => exact fun _ _ => rfl

/-- The longest piece spells its lexeme, which ends with it. -/
theorem spelledBy_of_spelled (h : spelled first (pieceTail first rest) span = .ok l) :
    l.SpelledBy (first :: pieceTail first rest) ∧
      l.EndsBefore (rest.drop (pieceTail first rest).length) := by
  unfold spelled at h
  split at h
  · rename_i hfirst
    have hrun : DigitRun (first :: rest) _ _ := .of_isDigit hfirst
    rw [numeral_eq hrun.digits] at h
    split at h
    · cases h
    · split at h
      · cases h
      · rename_i hvalue
        cases h
        exact ⟨.num hrun.ne_nil hrun.digits (Nat.not_lt.1 hvalue), hrun.ends⟩
  · rename_i hdigit
    split at h
    · rename_i hfirst
      cases h
      refine spelledBy_word hfirst (fun c hc => isAlphanum_of_mem_pieceTail hfirst hc) ?_
      have htail : pieceTail first rest = rest.takeWhile Char.isAlphanum := by
        unfold pieceTail
        rw [if_neg hdigit, if_pos hfirst]
      rw [htail]
      exact head?_drop_takeWhile _ _
    · rename_i halpha
      unfold sign at h
      split at h
      · rename_i hspell
        cases h
        have hl := spelling?_of_ofSpelling? hspell
        exact ⟨spelledBy_of_spelling? hl, endsBefore_of_sign halpha hl⟩
      · cases h

/-- The scanner takes just these characters for the lexeme in front of this rest. -/
def Takes (xs rest : List Char) (l : Lexeme) : Prop :=
  ∃ first tail, xs = first :: tail ∧ Text.isBlank first = false ∧
    pieceTail first (tail ++ rest) = tail ∧ ∀ span, spelled first tail span = .ok l

theorem takes_op {op : BinaryOp} (hends : (Lexeme.op op).EndsBefore rest) :
    Takes op.symbol.toList rest (.op op) := by
  have hequals : ∀ c : Char, pieceTail c rest = (rest.take 1).takeWhile (· = '=') →
      (∀ d ∈ rest.head?, decide (d = '=') = false) → pieceTail c ([] ++ rest) = [] :=
    fun c hc hrest => hc.trans (take_takeWhile_eq_nil_iff.2 hrest)
  cases op with
  | assign => exact ⟨'=', [], rfl, by decide, hequals '=' rfl hends, fun _ => rfl⟩
  | lt => exact ⟨'<', [], rfl, by decide, hequals '<' rfl hends, fun _ => rfl⟩
  | gt => exact ⟨'>', [], rfl, by decide, hequals '>' rfl hends, fun _ => rfl⟩
  | _ => exact ⟨_, _, rfl, by decide, rfl, fun _ => rfl⟩

theorem takes_word (hfirst : first.isAlpha = true) (htail : ∀ c ∈ tail, c.isAlphanum = true)
    (hrest : ∀ c ∈ rest.head?, c.isAlphanum = false) :
    Takes (first :: tail) rest (word (first :: tail)) := by
  have hrange := Text.toNat_of_isAlpha hfirst
  refine ⟨first, tail, rfl, Text.isBlank_eq_false (by omega) (by omega),
    pieceTail_of_isAlpha hfirst htail hrest, fun span => ?_⟩
  unfold spelled
  rw [if_neg (Text.isDigit_of_isAlpha hfirst), if_pos hfirst]

theorem takes_num (hne : xs ≠ []) (hdigits : ∀ c ∈ xs, c.isDigit = true)
    (hvalue : Text.decimalValue xs ≤ Word.maxValue) (htaken : ¬Refused xs)
    (hrest : ∀ c ∈ rest.head?, c.isDigit = false) :
    Takes xs rest (.num (Text.decimalValue xs)) := by
  have hrun : DigitRun (xs ++ rest) xs rest := ⟨rfl, hne, hdigits, hrest⟩
  obtain ⟨first, tail, rfl, -, hfirst, htail⟩ := hrun.pieceTail
  have hrange := Char.isDigit_iff_toNat.1 hfirst
  have h0 : '0'.toNat = 48 := rfl
  have h9 : '9'.toNat = 57 := rfl
  refine ⟨first, tail, rfl, Text.isBlank_eq_false (by omega) (by omega), htail, fun span => ?_⟩
  unfold spelled
  rw [if_pos hfirst, numeral_eq hdigits, if_neg htaken, if_neg (Nat.not_lt.2 hvalue)]

/-- A spelling in front of what does not go on with it is taken for its lexeme. -/
theorem takes_of_spelledBy (h : l.SpelledBy xs) (hends : l.EndsBefore rest)
    (htaken : (∀ c ∈ xs, c.isDigit = true) → ¬Refused xs) : Takes xs rest l := by
  cases h with
  | fixed hl =>
    cases l with
    | op op => cases hl; exact takes_op hends
    | num _ => cases hl
    | ident _ => cases hl
    | ifWord => cases hl; exact takes_word (by decide) (List.all_eq_true.1 (by decide)) hends
    | whileWord => cases hl; exact takes_word (by decide) (List.all_eq_true.1 (by decide)) hends
    | forWord => cases hl; exact takes_word (by decide) (List.all_eq_true.1 (by decide)) hends
    | _ => cases hl; exact ⟨_, _, rfl, by decide, rfl, fun _ => rfl⟩
  | num hne hdigits hvalue => exact takes_num hne hdigits hvalue (htaken hdigits) hends
  | @ident name hname =>
    obtain ⟨first, tail, hletters, hfirst, htail⟩ := hname.letters
    have hword : word (first :: tail) = .ident name := by
      unfold word
      rw [← hletters, String.ofList_toList, hname.ofSpelling?]
      rfl
    rw [hletters, ← hword]
    exact takes_word hfirst htail hends

/-- Behind blanks, what is taken for a lexeme is the next token. -/
theorem next_of_takes {s : Scanner} {ws : List Char} (hws : ∀ c ∈ ws, Text.isBlank c = true)
    (hrest : s.rest = ws ++ (xs ++ rest)) (h : Takes xs rest l) :
    s.next = .ok (some ⟨l, s.pieceSpan ws xs⟩) (s.pass (ws ++ xs)) := by
  obtain ⟨first, tail, rfl, hblank, htail, hl⟩ := h
  have hfirst : ∀ c ∈ (first :: tail ++ rest).head?, Text.isBlank c = false := by
    rintro c ⟨⟩
    exact hblank
  have hblanks : s.rest.takeWhile Text.isBlank = ws := by
    rw [hrest, takeWhile_append_of_ends hws hfirst]
  have hdrop : s.rest.dropWhile Text.isBlank = first :: (tail ++ rest) := by
    rw [← drop_length_takeWhile, hblanks, hrest, List.drop_left]
    rfl
  have hnext := (next_eq_some (t := ⟨l, s.pieceSpan ws (first :: tail)⟩)).2
    ⟨first, tail ++ rest, hdrop, by rw [htail]; exact hl _, by rw [hblanks, htail], rfl⟩
  rwa [hblanks, htail] at hnext

end Pieces

/-- How a token is cut off: behind blanks stand the characters that spell it. -/
structure Cuts (s : Scanner) (ws xs : List Char) (t : Token) (s' : Scanner) : Prop where
  blanks : ∀ c ∈ ws, Text.isBlank c = true
  rest : s.rest = ws ++ (xs ++ s'.rest)
  spelled : t.lexeme.SpelledBy xs
  /-- Digits are no more than the number reader takes. -/
  taken : (∀ c ∈ xs, c.isDigit = true) → ¬Refused xs
  ends : t.lexeme.EndsBefore s'.rest
  span : t.span = s.pieceSpan ws xs
  pass : s' = s.pass (ws ++ xs)

theorem exists_cuts {s s' : Scanner} {t : Token} (h : s.next = .ok (some t) s') :
    ∃ ws xs, Cuts s ws xs t s' := by
  obtain ⟨first, rest, hrest, hl, hspan, rfl⟩ := next_eq_some.1 h
  have hafter := rest_pass_piece hrest
  obtain ⟨hspelled, hends⟩ := spelledBy_of_spelled hl
  refine ⟨_, _, fun c hc => List.all_eq_true.1 List.all_takeWhile c hc, ?_, hspelled, ?_,
    hafter ▸ hends, hspan, rfl⟩
  · rw [hafter, ← List.append_assoc]
    exact rest_eq_piece hrest
  · intro hdigits hrefused
    unfold Scanner.spelled at hl
    rw [if_pos (hdigits first List.mem_cons_self), numeral_eq hdigits, if_pos hrefused] at hl
    cases hl

/-! ## Texts -/

/-- What the scanner reads on its way to the end is a cut of the text. -/
theorem Scans.tokenizes {s s' : Scanner} {ts : List Token} (h : Scans s ts s') (hend : s'.AtEnd) :
    Tokenizes s.offset s.rest ts := by
  induction h with
  | refl s =>
    refine .blanks fun c hc => ?_
    have hsplit := List.takeWhile_append_dropWhile (p := Text.isBlank) (l := s.rest)
    rw [hend, List.append_nil] at hsplit
    exact List.all_eq_true.1 List.all_takeWhile c (hsplit ▸ hc)
  | @step s s₁ s' t ts hnext _ ih =>
    obtain ⟨ws, xs, hcut⟩ := exists_cuts hnext
    obtain ⟨lexeme, span⟩ := t
    obtain rfl : span = _ := hcut.span
    rw [hcut.rest]
    refine .token hcut.blanks hcut.spelled hcut.ends ?_
    have ih := ih hend
    rwa [show s₁.offset = s.offset + Text.utf8Length (ws ++ xs) by rw [hcut.pass]; rfl] at ih

/-- A cut of the text is what the scanner reads on its way to the end. -/
theorem exists_scans_of_tokenizes {offset : Nat} {cs : List Char} {ts : List Token}
    (h : Tokenizes offset cs ts) : ∀ s : Scanner, s.offset = offset → s.rest = cs → FewDigits cs →
      ∃ s', Scans s ts s' ∧ s'.AtEnd := by
  induction h with
  | blanks hws =>
    rintro s - rfl -
    refine ⟨s, .refl s, ?_⟩
    show s.rest.dropWhile Text.isBlank = []
    rw [← List.append_nil s.rest, List.dropWhile_append_of_pos hws]
    rfl
  | @token offset ws xs rest l ts hws hspelled hends _ ih =>
    rintro s rfl hrest hfew
    have htaken : (∀ c ∈ xs, c.isDigit = true) → ¬Refused xs := fun hdigits hrefused =>
      Nat.not_lt.2 (hfew xs ⟨ws, rest, List.append_assoc _ _ _⟩ hdigits) hrefused.1
    have hnext := next_of_takes hws hrest (takes_of_spelledBy hspelled hends htaken)
    have hpass : (s.pass (ws ++ xs)).rest = rest :=
      rest_pass (by rw [hrest, List.append_assoc])
    obtain ⟨s', hscans, hend⟩ := ih _ rfl hpass fun ds hds => hfew ds
      (hds.trans ⟨ws ++ xs, [], by simp⟩)
    exact ⟨s', .step hnext hscans, hend⟩

end Scanner

/-- A text without a run of digits that is too long is cut into tokens in the one way in which it
can be, and fails with a fault if there is none. -/
theorem tokens_iff_tokenizes {source : String} (h : FewDigits source.toList) :
    (∀ ts, tokens source = .ok ts ↔ Tokenizes 0 source.toList ts) ∧
      ((¬∃ ts, Tokenizes 0 source.toList ts) →
        ∃ e, tokens source = .error e ∧ e.fault?.isSome = true) := by
  have hiff : ∀ ts, tokens source = .ok ts ↔ Tokenizes 0 source.toList ts := by
    intro ts
    rw [tokens_eq_ok]
    constructor
    · rintro ⟨s, hscans, hend⟩
      exact hscans.tokenizes hend
    · intro hcut
      exact exists_scans_of_tokenizes hcut (.start source.toList) rfl rfl h
  refine ⟨hiff, fun hnone => ?_⟩
  cases htokens : tokens source with
  | ok ts => exact absurd ⟨ts, (hiff ts).1 htokens⟩ hnone
  | error e =>
    refine ⟨e, rfl, ?_⟩
    cases hfault : e.fault? with
    | some fault => rfl
    | none =>
      obtain ⟨ts, s, run, rest, hscans, hrun, hrefused, -⟩ := exists_run_of_error htokens hfault
      have hrest : run <+: s.rest.dropWhile Text.isBlank := ⟨rest, hrun.eq_append.symm⟩
      have hsuffix := (List.dropWhile_suffix Text.isBlank).trans hscans.suffix
      exact absurd hrefused.1
        (Nat.not_lt.2 (h run (hrest.isInfix.trans hsuffix.isInfix) hrun.digits))

/-- A text with a blank of three bytes, a sign of two characters and leading zeros. -/
def wideBlank : String := "a1\u3000<=007;"

theorem tokens_iff_tokenizes_wideBlank : FewDigits wideBlank.toList ∧
    Tokenizes 0 wideBlank.toList [⟨.ident "a1", ⟨0, 2⟩⟩, ⟨.op .le, ⟨5, 7⟩⟩, ⟨.num 7, ⟨7, 10⟩⟩,
      ⟨.semicolon, ⟨10, 11⟩⟩] := by
  have hfew : FewDigits wideBlank.toList := fun ds hds _ =>
    Nat.le_trans hds.length_le (by decide)
  have hread : (tokens wideBlank).toOption = some [⟨.ident "a1", ⟨0, 2⟩⟩, ⟨.op .le, ⟨5, 7⟩⟩,
      ⟨.num 7, ⟨7, 10⟩⟩, ⟨.semicolon, ⟨10, 11⟩⟩] := by decide +kernel
  cases htokens : tokens wideBlank with
  | error e =>
    rw [htokens] at hread
    cases hread
  | ok ts =>
    rw [htokens] at hread
    cases hread
    exact ⟨hfew, ((tokens_iff_tokenizes hfew).1 _).1 htokens⟩

end Imp32
