import Imp32.Highlight
import Imp32.Proofs.Munch

/-!
# The pieces of a text

Pieces are cut off one behind the other: blanks as far as they go (`piecesBehind_blanks`), and
whatever spells a lexeme as one piece, of a kind that depends on the lexeme alone
(`firstPiece_of_spelledBy`). There is one exception, since a keyword has to be a word of its own
among letters of any script: between other characters of words it is taken for a name. What spells
no lexeme is an error (`firstPiece_of_invalid`).
-/

namespace Imp32

/-- The kind of piece that a lexeme is. -/
def Lexeme.pieceKind : Lexeme → PieceKind
  | op _ => .operator
  | num _ => .number
  | ident _ => .name
  | leftParen | rightParen | leftBrace | rightBrace | semicolon => .punctuation
  | ifWord | whileWord | forWord => .keyword

namespace Highlight

open Scanner

/-! ## One piece behind the other -/

section Behind

variable {before : Option Char} {first : Char} {tail rest more : List Char} {piece : Piece}

/-- A piece is cut off the front of the text, with the first character at least. -/
theorem exists_tail_of_firstPiece (before : Option Char) (first : Char) (rest : List Char) :
    ∃ tail, (firstPiece before first rest).text = first :: tail ∧ tail <+: rest := by
  unfold firstPiece
  split
  · exact ⟨_, rfl, List.takeWhile_prefix _⟩
  split
  · exact ⟨_, rfl, List.takeWhile_prefix _⟩
  split
  · exact ⟨_, rfl, List.takeWhile_prefix _⟩
  split
  · rename_i hequals
    obtain ⟨more, rfl⟩ := List.head?_eq_some_iff.1
      (of_decide_eq_true (Bool.and_eq_true_iff.1 hequals).2)
    exact ⟨['='], rfl, more, rfl⟩
  split
  · exact ⟨[], rfl, List.nil_prefix⟩
  split
  · exact ⟨_, rfl, List.takeWhile_prefix _⟩
  split
  · exact ⟨[], rfl, List.nil_prefix⟩
  · exact ⟨[], rfl, List.nil_prefix⟩

/-- Any characters that are enough count the pieces. -/
theorem piecesFrom_congr : ∀ (count count' : List Char) (before : Option Char) (cs : List Char),
    cs.length ≤ count.length → cs.length ≤ count'.length →
      piecesFrom count before cs = piecesFrom count' before cs := by
  intro count
  induction count with
  | nil =>
    intro count' before cs hlen _
    obtain rfl : cs = [] := List.eq_nil_of_length_eq_zero (Nat.le_zero.1 hlen)
    cases count' <;> rfl
  | cons k count ih =>
    intro count' before cs hlen hlen'
    cases cs with
    | nil => cases count' <;> rfl
    | cons first rest =>
      cases count' with
      | nil => cases hlen'
      | cons k' count' =>
        obtain ⟨tail, htext, -⟩ := exists_tail_of_firstPiece before first rest
        have hdrop : ((first :: rest).drop (firstPiece before first rest).text.length).length ≤
            rest.length := by
          rw [htext, List.length_drop, List.length_cons, List.length_cons]
          omega
        rw [List.length_cons, List.length_cons] at hlen hlen'
        exact congrArg (firstPiece before first rest :: ·)
          (ih count' _ _ (by omega) (by omega))

def piecesBehind (before : Option Char) (cs : List Char) : List Piece :=
  piecesFrom cs before cs

/-- The first piece is followed by the pieces of what is behind it. -/
theorem piecesBehind_cons (h : firstPiece before first (tail ++ more) = piece)
    (htext : piece.text = first :: tail) :
    piecesBehind before (first :: (tail ++ more)) =
      piece :: piecesBehind (first :: tail).getLast? more := by
  have hdrop : (first :: (tail ++ more)).drop piece.text.length = more := by
    rw [htext, ← List.cons_append, List.drop_left]
  unfold piecesBehind
  conv =>
    lhs
    unfold piecesFrom
  dsimp only
  rw [h, hdrop, htext]
  congr 1
  exact piecesFrom_congr _ _ _ _ (by simp) (Nat.le_refl _)

/-- The pieces of a text, put together, are the text. -/
theorem flatMap_piecesBehind (cs : List Char) :
    ∀ before, (piecesBehind before cs).flatMap Piece.text = cs := by
  induction hn : cs.length using Nat.strongRecOn generalizing cs with
  | ind n ih =>
    intro before
    cases cs with
    | nil => rfl
    | cons first rest =>
      obtain ⟨tail, htext, more, rfl⟩ := exists_tail_of_firstPiece before first rest
      rw [List.length_cons, List.length_append] at hn
      rw [piecesBehind_cons rfl htext, List.flatMap_cons, ih _ (by omega) more rfl, htext,
        List.cons_append]

end Behind

/-! ## Blanks -/

def blankPieces (ws : List Char) : List Piece :=
  if ws = [] then [] else [⟨.blank, ws⟩]

/-- Blanks are a piece, up to what is not blank. -/
theorem piecesBehind_blanks {before : Option Char} {ws rest : List Char}
    (hws : ∀ c ∈ ws, Text.isBlank c = true) (hrest : ∀ c ∈ rest.head?, Text.isBlank c = false) :
    piecesBehind before (ws ++ rest) =
      blankPieces ws ++ piecesBehind (ws.getLast?.or before) rest := by
  cases ws with
  | nil => rfl
  | cons w ws =>
    have hfirst : firstPiece before w (ws ++ rest) = ⟨.blank, w :: ws⟩ := by
      unfold firstPiece
      rw [if_pos (hws w List.mem_cons_self),
        takeWhile_append_of_ends (fun c hc => hws c (List.mem_cons_of_mem w hc)) hrest]
    rw [List.cons_append, piecesBehind_cons hfirst rfl, List.getLast?_cons]
    rfl

/-! ## Words -/

section Words

variable {before : Option Char} {first : Char} {tail rest : List Char}

theorem isWordChar_of_isAlphanum {c : Char} (h : c.isAlphanum = true) : isWordChar c = true := by
  unfold isWordChar
  rw [Text.isAlphanumeric_of_isAlphanum h, Bool.true_or]

/-- Keywords are made of letters. -/
theorem isAlpha_of_mem_keywords {word : List Char} (h : word ∈ keywords) :
    ∀ c ∈ word, c.isAlpha = true := by
  have hletters : keywords.all (fun word => word.all Char.isAlpha) = true := by decide
  exact List.all_eq_true.1 (List.all_eq_true.1 hletters word h)

theorem isKeyword_eq_false (h : first.isAlpha = false) : isKeyword before first rest = false := by
  unfold isKeyword
  rw [Bool.and_eq_false_iff]
  refine .inr (Bool.eq_false_iff.2 fun hcontains => ?_)
  rw [isAlpha_of_mem_keywords (List.contains_iff_mem.1 hcontains) first List.mem_cons_self] at h
  cases h

/-- A word is a keyword if no other character of a word touches it. -/
theorem isKeyword_append (htail : ∀ c ∈ tail, c.isAlphanum = true)
    (hrest : ∀ c ∈ rest.head?, c.isAlphanum = false) :
    isKeyword before first (tail ++ rest) =
      (!before.any isWordChar && !rest.head?.any isWordChar &&
        keywords.contains (first :: tail)) := by
  have hword : ∀ c ∈ tail, isWordChar c = true := fun c hc => isWordChar_of_isAlphanum (htail c hc)
  unfold isKeyword
  rw [Bool.and_assoc]
  congr 1
  rw [List.takeWhile_append_of_pos hword]
  cases rest with
  | nil => simp
  | cons c rest =>
    cases hc : isWordChar c with
    | false => simp [hc]
    | true =>
      -- the word goes on with a character that no keyword has
      have hnot : keywords.contains (first :: (tail ++ c :: rest.takeWhile isWordChar)) =
          false := by
        refine Bool.eq_false_iff.2 fun hcontains => ?_
        have hletter := isAlpha_of_mem_keywords (List.contains_iff_mem.1 hcontains) c (by simp)
        have hother := hrest c rfl
        rw [Char.isAlphanum, hletter] at hother
        cases hother
      rw [List.takeWhile_cons_of_pos hc, hnot]
      simp [hc]

/-- A word is taken for a keyword or for a name. -/
theorem firstPiece_word (hfirst : first.isAlpha = true) (htail : ∀ c ∈ tail, c.isAlphanum = true)
    (hrest : ∀ c ∈ rest.head?, c.isAlphanum = false) :
    firstPiece before first (tail ++ rest) =
      ⟨if isKeyword before first (tail ++ rest) then .keyword else .name, first :: tail⟩ := by
  have hrange := Text.toNat_of_isAlpha hfirst
  have hblank : Text.isBlank first = false := Text.isBlank_eq_false (by omega) (by omega)
  have hsign : ∀ signs : List Char, (signs.all fun c => !c.isAlpha) = true → first ∉ signs := by
    intro signs hsigns hmem
    have hnot := List.all_eq_true.1 hsigns first hmem
    rw [hfirst] at hnot
    cases hnot
  have hequals : ¬(takesEquals first && (tail ++ rest).head? = some '=') = true := by
    have := hsign ['=', '!', '<', '>'] (by decide)
    simp only [List.mem_cons, List.not_mem_nil, or_false, not_or] at this
    simp [takesEquals, this]
  have hoperator : ¬isOperator first = true := fun h =>
    hsign _ (by decide) (List.contains_iff_mem.1 h)
  unfold firstPiece
  rw [if_neg (by simp [hblank]), if_neg (Text.isDigit_of_isAlpha hfirst)]
  by_cases hkeyword : isKeyword before first (tail ++ rest) = true
  · rw [if_pos hkeyword, if_pos hkeyword]
    rw [isKeyword_append htail hrest, Bool.and_eq_true, Bool.and_eq_true] at hkeyword
    have hnot : ∀ c ∈ rest.head?, isWordChar c = false := by
      intro c hc
      have := hkeyword.1.2
      rw [hc] at this
      simpa using this
    rw [takeWhile_append_of_ends (fun c hc => isWordChar_of_isAlphanum (htail c hc)) hnot]
  · rw [if_neg hkeyword, if_neg hkeyword, if_neg hequals, if_neg hoperator, if_pos hfirst,
      takeWhile_append_of_ends htail hrest]

end Words

/-! ## Signs -/

section Signs

variable {before : Option Char} {first : Char} {rest : List Char}

/-- The kind of the piece that a sign is by itself. -/
def signKind (c : Char) : PieceKind :=
  if isOperator c then .operator else if isPunctuation c then .punctuation else .error

/-- The character is no blank, no digit and no letter. -/
structure IsSign (c : Char) : Prop where
  blank : Text.isBlank c = false
  digit : c.isDigit = false
  alpha : c.isAlpha = false

/-- A sign is a piece by itself, unless it goes on with an equals sign. -/
theorem IsSign.alone (h : IsSign first)
    (hrest : takesEquals first = true → ∀ c ∈ rest.head?, decide (c = '=') = false) :
    firstPiece before first rest = ⟨signKind first, [first]⟩ := by
  have hequals : (takesEquals first && rest.head? = some '=') = false := by
    cases hfirst : takesEquals first with
    | false => rfl
    | true =>
      rw [Bool.true_and, decide_eq_false_iff_not]
      intro hhead
      cases hrest hfirst '=' hhead
  unfold firstPiece signKind
  rw [h.blank, h.digit, isKeyword_eq_false h.alpha, hequals, h.alpha]
  cases isOperator first <;> cases isPunctuation first <;> rfl

/-- A sign that no equals sign goes on with is a piece by itself, whatever follows. -/
theorem IsSign.alone_of_not (h : IsSign first) (hnot : takesEquals first = false) :
    firstPiece before first rest = ⟨signKind first, [first]⟩ :=
  h.alone fun htakes => by
    rw [hnot] at htakes
    cases htakes

/-- A sign goes on with an equals sign. -/
theorem IsSign.withEquals (h : IsSign first) (htakes : takesEquals first = true) :
    firstPiece before first ('=' :: rest) = ⟨.operator, [first, '=']⟩ := by
  unfold firstPiece
  rw [h.blank, h.digit, isKeyword_eq_false h.alpha, htakes]
  rfl

theorem IsSign.pieceTail_eq (h : IsSign first) :
    pieceTail first rest =
      if takesEquals first then (rest.take 1).takeWhile (· = '=') else [] := by
  unfold pieceTail takesEquals
  rw [h.digit, h.alpha]
  simp [or_assoc]

theorem isSign_of_invalid {text : String} {span span' : Span} (hblank : Text.isBlank first = false)
    (h : spelled first (pieceTail first rest) span = .error (.invalidToken text span')) :
    IsSign first ∧ Lexeme.ofSpelling? (String.ofList (first :: pieceTail first rest)) = none := by
  unfold spelled at h
  split at h
  · rename_i hdigit
    rw [numeral_eq (DigitRun.of_isDigit hdigit).digits] at h
    split at h
    · cases h
    · split at h <;> cases h
  · rename_i hdigit
    split at h
    · cases h
    · rename_i halpha
      unfold sign at h
      split at h
      · cases h
      · exact ⟨⟨hblank, by simpa using hdigit, by simpa using halpha⟩, by assumption⟩

/-- What the scanner takes for no token is an error of one character. -/
theorem firstPiece_of_invalid {text : String} {span span' : Span}
    (hblank : Text.isBlank first = false)
    (h : spelled first (pieceTail first rest) span = .error (.invalidToken text span')) :
    firstPiece before first rest = ⟨.error, [first]⟩ := by
  obtain ⟨hsign, hnone⟩ := isSign_of_invalid hblank h
  have hpair : (['=', '!', '<', '>'].all fun c =>
      (Lexeme.ofSpelling? (String.ofList [c, '='])).isSome) = true := by decide
  have hoperators : (['+', '-', '*', '/', '^', '<', '>', '='].all fun c =>
      (Lexeme.ofSpelling? (String.ofList [c])).isSome) = true := by decide
  have hpunctuation : (['(', ')', '\x7b', '\x7d', ';'].all fun c =>
      (Lexeme.ofSpelling? (String.ofList [c])).isSome) = true := by decide
  -- an equals sign behind it would make a token of it
  have hrest : takesEquals first = true → ∀ c ∈ rest.head?, decide (c = '=') = false := by
    intro htakes c hc
    rw [hsign.pieceTail_eq, if_pos htakes] at hnone
    refine decide_eq_false fun hequals => ?_
    obtain ⟨more, rfl⟩ := List.head?_eq_some_iff.1 (hequals ▸ hc : rest.head? = some '=')
    have hsome := List.all_eq_true.1 hpair first (by simpa [takesEquals, or_assoc] using htakes)
    exact Option.isSome_iff_ne_none.1 hsome hnone
  have htail : pieceTail first rest = [] := by
    rw [hsign.pieceTail_eq]
    split
    · rename_i htakes
      exact take_takeWhile_eq_nil_iff.2 (hrest htakes)
    · rfl
  rw [htail] at hnone
  have hkind : signKind first = .error := by
    unfold signKind
    have hnot : ∀ signs : List Char, (signs.all fun c =>
        (Lexeme.ofSpelling? (String.ofList [c])).isSome) = true → ¬signs.contains first = true :=
      fun signs hsigns hmem => Option.isSome_iff_ne_none.1
        (List.all_eq_true.1 hsigns first (List.contains_iff_mem.1 hmem)) hnone
    rw [isOperator, if_neg (hnot _ hoperators), isPunctuation, if_neg (hnot _ hpunctuation)]
  rw [hsign.alone hrest, hkind]

end Signs

/-! ## Lexemes -/

def kindBetween (before : Option Char) (rest : List Char) (l : Lexeme) : PieceKind :=
  if l.pieceKind = .keyword ∧
      (before.any isWordChar = true ∨ rest.head?.any isWordChar = true) then .name
  else l.pieceKind

section Lexemes

variable {before : Option Char} {first : Char} {tail rest : List Char} {l : Lexeme}

/-- A name is no keyword. -/
theorem not_mem_keywords {name : String} (h : IsName name) : name.toList ∉ keywords := by
  intro hmem
  rcases List.mem_cons.1 hmem with hif | hmem
  · exact h.ne_if (String.toList_inj.1 hif)
  rcases List.mem_cons.1 hmem with hwhile | hmem
  · exact h.ne_while (String.toList_inj.1 hwhile)
  · exact h.ne_for (String.toList_inj.1 (List.mem_singleton.1 hmem))

theorem firstPiece_op {op : BinaryOp} (hxs : op.symbol.toList = first :: tail)
    (hends : (Lexeme.op op).EndsBefore rest) :
    firstPiece before first (tail ++ rest) = ⟨.operator, first :: tail⟩ := by
  cases op with
  | assign => cases hxs; exact (IsSign.mk rfl rfl rfl).alone fun _ => hends
  | lt => cases hxs; exact (IsSign.mk rfl rfl rfl).alone fun _ => hends
  | gt => cases hxs; exact (IsSign.mk rfl rfl rfl).alone fun _ => hends
  | eq => cases hxs; exact (IsSign.mk rfl rfl rfl).withEquals rfl
  | ne => cases hxs; exact (IsSign.mk rfl rfl rfl).withEquals rfl
  | ge => cases hxs; exact (IsSign.mk rfl rfl rfl).withEquals rfl
  | le => cases hxs; exact (IsSign.mk rfl rfl rfl).withEquals rfl
  | _ => cases hxs; exact (IsSign.mk rfl rfl rfl).alone_of_not rfl

/-- A word is the keyword that it spells, unless a character of a word touches it. -/
theorem firstPiece_keyword (hl : l.pieceKind = .keyword) (hword : first :: tail ∈ keywords)
    (hrest : ∀ c ∈ rest.head?, c.isAlphanum = false) :
    firstPiece before first (tail ++ rest) = ⟨kindBetween before rest l, first :: tail⟩ := by
  obtain ⟨hfirst, hletters⟩ := List.forall_mem_cons.1 (isAlpha_of_mem_keywords hword)
  have htail : ∀ c ∈ tail, c.isAlphanum = true := fun c hc => by
    rw [Char.isAlphanum, hletters c hc, Bool.true_or]
  rw [firstPiece_word hfirst htail hrest, isKeyword_append htail hrest,
    List.contains_iff_mem.2 hword, kindBetween, hl]
  cases before.any isWordChar <;> cases rest.head?.any isWordChar <;> rfl

/-- What spells a lexeme is one piece. -/
theorem firstPiece_of_spelledBy (h : l.SpelledBy (first :: tail)) (hends : l.EndsBefore rest) :
    firstPiece before first (tail ++ rest) = ⟨kindBetween before rest l, first :: tail⟩ := by
  generalize hxs : first :: tail = xs at h
  cases h with
  | fixed hl =>
    cases l with
    | op op =>
      cases hl
      rw [← hxs]
      exact firstPiece_op hxs.symm hends
    | num _ => cases hl
    | ident _ => cases hl
    | ifWord => cases hl; rw [← hxs]; exact firstPiece_keyword rfl (hxs ▸ by decide) hends
    | whileWord => cases hl; rw [← hxs]; exact firstPiece_keyword rfl (hxs ▸ by decide) hends
    | forWord => cases hl; rw [← hxs]; exact firstPiece_keyword rfl (hxs ▸ by decide) hends
    | _ => cases hl; cases hxs; exact (IsSign.mk rfl rfl rfl).alone_of_not rfl
  | num hne hdigits hvalue =>
    subst hxs
    have hfirst := hdigits first List.mem_cons_self
    have hrange := Text.range_of_isAlphanum (c := first) (by simp [Char.isAlphanum, hfirst])
    have hblank := Text.isBlank_eq_false hrange.1 hrange.2
    unfold firstPiece
    rw [hblank, if_neg Bool.false_ne_true, if_pos hfirst, takeWhile_append_of_ends
      (fun c hc => hdigits c (List.mem_cons_of_mem first hc)) hends]
    rfl
  | ident hname =>
    obtain ⟨c, cs, hletters, hfirst, htail⟩ := hname.letters
    obtain ⟨rfl, rfl⟩ := List.cons.inj (hxs.trans hletters)
    have hnot : keywords.contains (first :: tail) = false :=
      Bool.eq_false_iff.2 fun hcontains =>
        not_mem_keywords hname (hletters ▸ List.contains_iff_mem.1 hcontains)
    rw [firstPiece_word hfirst htail hends, isKeyword_append htail hends, hnot, Bool.and_false,
      hletters]
    rfl

end Lexemes

end Highlight

end Imp32
