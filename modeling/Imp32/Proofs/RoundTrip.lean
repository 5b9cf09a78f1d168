import Imp32.Program.Printer
import Imp32.Proofs.Grammar.Complete
import Imp32.Proofs.Proper

/-!
# What is printed is read back

The layout of a program follows the lexemes that it is made of: `Expr.lexemes` and `Stmt.lexemes`
write a program as lexemes by the same rule for parentheses. The layout spells these lexemes, and
they derive the program, so a text in canonical layout is read as the program that was printed
(`ofTokens_print`).
-/

namespace Imp32

open Grammar Scanner

/-! ## Lexemes of a program -/

def parenthesesIf (need : Bool) (ls : List Lexeme) : List Lexeme :=
  if need then .leftParen :: (ls ++ [.rightParen]) else ls

/-- The lexemes of an expression where operators have to bind at least as tightly as `least`. -/
def Expr.lexemes : (least : Nat) → Expr → List Lexeme
  | _, .value n _ => [.num n]
  | _, .var name _ => [.ident name]
  | least, .neg a _ =>
    parenthesesIf (Precedence.power < least) (.op .sub :: a.lexemes Precedence.unary)
  | least, .binary a op b _ =>
    parenthesesIf (op.precedence < least)
      (a.lexemes op.leftOperand ++ .op op :: b.lexemes op.rightOperand)

def clauseLexemes (e : Option Expr) : List Lexeme :=
  match e with
  | some e => e.lexemes Precedence.lowest
  | none => []

def blockLexemes (body : List Lexeme) : List Lexeme :=
  .leftBrace :: body ++ [.rightBrace]

mutual

/-- The lexemes of a statement. -/
def Stmt.lexemes : Stmt → List Lexeme
  | .expr e _ => e.lexemes Precedence.lowest ++ [.semicolon]
  | .block body _ => blockLexemes (statementLexemes body)
  | .ifThen cond body _ =>
    .ifWord :: .leftParen :: cond.lexemes Precedence.lowest ++
      .rightParen :: blockLexemes (statementLexemes body)
  | .whileLoop cond body _ =>
    .whileWord :: .leftParen :: cond.lexemes Precedence.lowest ++
      .rightParen :: blockLexemes (statementLexemes body)
  | .forLoop init cond update body _ =>
    .forWord :: .leftParen :: clauseLexemes init ++ .semicolon :: clauseLexemes cond ++
      .semicolon :: clauseLexemes update ++ .rightParen :: blockLexemes (statementLexemes body)

def statementLexemes : Program → List Lexeme
  | [] => []
  | s :: rest => s.lexemes ++ statementLexemes rest

end

/-! ## The lexemes derive the program -/

theorem Grammar.Derives.parenthesesIf {c : Category} {need : Bool} {ls : List Lexeme} {e : Expr}
    (hneed : need = true → Derives .expr ls e) (h : need = false → Derives c ls e) :
    Derives c (parenthesesIf need ls) e := by
  cases need with
  | true => exact (Derives.paren (hneed rfl)).loosen (by cases c <;> decide)
  | false => exact h rfl

/-- At every place, an expression that assigns to variables only is derived from its lexemes. -/
theorem Expr.derives_lexemes {e : Expr} (h : e.WellFormed) (least : Nat) :
    Derives (.ofLeast least) (e.lexemes least) e := by
  induction e generalizing least with
  | value n span => exact (Derives.num n span).loosen (by cases Category.ofLeast least <;> decide)
  | var name span =>
    exact (Derives.ident name span).loosen (by cases Category.ofLeast least <;> decide)
  | neg a span ih =>
    have hneg : Derives .un (.op .sub :: a.lexemes Precedence.unary) (.neg a span) :=
      .neg span (ih h Precedence.unary)
    refine Derives.parenthesesIf (fun _ => hneg.loosen (by decide)) fun hleast => hneg.loosen ?_
    exact Category.rank_ofLeast_le_un (Nat.not_lt.1 (of_decide_eq_false hleast))
  | binary a op b span iha ihb =>
    obtain ⟨hvar, ha, hb⟩ := h
    have hbinary : Derives op.category
        (a.lexemes op.leftOperand ++ .op op :: b.lexemes op.rightOperand) (.binary a op b span) :=
      .binary span (iha ha _) (by cases op <;> decide) hvar (ihb hb _)
    refine Derives.parenthesesIf (fun _ => hbinary.loosen (by cases op <;> decide))
      fun hleast => hbinary.loosen ?_
    exact BinaryOp.rank_ofLeast_le_category (Nat.not_lt.1 (of_decide_eq_false hleast))

theorem Expr.derives_lexemes_lowest {e : Expr} (h : e.Proper) :
    Derives .expr (e.lexemes Precedence.lowest) e :=
  e.derives_lexemes h.wellFormed Precedence.lowest

theorem derives_clauseLexemes {e : Option Expr} (h : ∀ a ∈ e, a.Proper) :
    Clause (clauseLexemes e) e := by
  cases e with
  | none => exact .absent
  | some a => exact .present (a.derives_lexemes_lowest (h a rfl))

mutual

theorem Stmt.derives_lexemes {s : Stmt} (h : s.Each Expr.Proper) : Statement s.lexemes s := by
  cases s with
  | expr e span => exact .expr span (e.derives_lexemes_lowest h)
  | block body span => exact .block span (.braces (derives_statementLexemes h))
  | ifThen cond body span =>
    exact .ifThen span (cond.derives_lexemes_lowest h.1) (.braces (derives_statementLexemes h.2))
  | whileLoop cond body span =>
    exact .whileLoop span (cond.derives_lexemes_lowest h.1) (.braces (derives_statementLexemes h.2))
  | forLoop init cond update body span =>
    exact .forLoop span (derives_clauseLexemes h.1) (derives_clauseLexemes h.2.1)
      (derives_clauseLexemes h.2.2.1) (.braces (derives_statementLexemes h.2.2.2))

/-- A proper program is derived from its lexemes. -/
theorem derives_statementLexemes {p : Program} (h : p.Proper) :
    Statements (statementLexemes p) p := by
  cases p with
  | nil => exact .nil
  | cons s rest => exact .cons (Stmt.derives_lexemes h.1) (derives_statementLexemes h.2)

end

/-! ## The layout spells the lexemes -/

/-- A word or a numeral ends in front of this text. -/
def EndsWord (rest : List Char) : Prop := ∀ c ∈ rest.head?, c.isAlphanum = false

theorem endsWord_space {rest : List Char} : EndsWord (' ' :: rest) := by
  intro c hc
  cases hc
  decide

theorem takeWhile_of_endsWord {p : Char → Bool} {rest : List Char} (h : EndsWord rest)
    (hp : ∀ c, p c = true → c.isAlphanum = true) : rest.takeWhile p = [] := by
  cases rest with
  | nil => rfl
  | cons c rest =>
    refine List.takeWhile_cons_of_neg fun hc => ?_
    have := h c rfl
    rw [hp c hc] at this
    cases this

theorem Text.decimalValue_toDigits (n : Nat) : decimalValue (Nat.toDigits 10 n) = n := by
  rw [decimalValue_eq, Nat.ofDigitChars_toDigits (by decide) (by decide)]

/-- A number in range is spelled by its decimal digits. -/
theorem Scanner.numeral_toDigits {n : Nat} (h : n ≤ Word.maxValue) (span : Span) :
    numeral (Nat.toDigits 10 n) span = .ok (.num n) := by
  have hlen : (Nat.toDigits 10 n).length ≤ maxSignificant :=
    (Nat.length_toDigits_le_iff (by decide) (by decide)).2
      (Nat.lt_of_le_of_lt h (by decide))
  have hdrop := (List.dropWhile_sublist (l := Nat.toDigits 10 n) (· = '0')).length_le
  unfold numeral
  dsimp only
  rw [if_neg (Nat.not_lt.2 (Nat.le_trans hdrop hlen)),
    if_neg (Nat.not_lt.2 (Nat.le_trans hlen (by decide))), Text.decimalValue_toDigits,
    if_neg (Nat.not_lt.2 h)]

namespace Spells

variable {rest : List Char} {ls : List Lexeme}

/-- A piece in front of a text that does not go on with it. -/
theorem append {first : Char} {tail : List Char} {l : Lexeme}
    (hfirst : Text.isBlank first = false) (htail : pieceTail first (tail ++ rest) = tail)
    (hl : ∀ span, spelled first tail span = .ok l) (h : Spells rest ls) :
    Spells (first :: (tail ++ rest)) (l :: ls) := by
  refine .piece hfirst (by rwa [htail]) ?_
  rwa [htail, List.drop_left]

theorem num {n : Int} (hn : IsLiteral n) (hrest : EndsWord rest) (h : Spells rest ls) :
    Spells (Text.decimal n ++ rest) (.num n :: ls) := by
  obtain ⟨k, rfl⟩ := Int.eq_ofNat_of_zero_le hn.1
  have hdigits : ∀ c ∈ Nat.toDigits 10 k, c.isDigit = true := fun c hc =>
    Nat.isDigit_of_mem_toDigits (by decide) (by decide) hc
  have hnumeral := numeral_toDigits (Int.ofNat_le.1 hn.2)
  have hlayout : Text.decimal k = Nat.toDigits 10 k := by
    unfold Text.decimal
    rw [if_neg (by omega)]
    rfl
  rw [hlayout]
  cases hds : Nat.toDigits 10 k with
  | nil => exact absurd hds Nat.toDigits_ne_nil
  | cons d ds =>
    rw [hds] at hdigits hnumeral
    have hd := hdigits d List.mem_cons_self
    have hrange := Char.isDigit_iff_toNat.1 hd
    have h0 : '0'.toNat = 48 := rfl
    have h9 : '9'.toNat = 57 := rfl
    refine append (Text.isBlank_eq_false (by omega) (by omega)) ?_ ?_ h
    · unfold pieceTail
      rw [if_pos hd, List.takeWhile_append_of_pos fun c hc => hdigits c (List.mem_cons_of_mem d hc),
        takeWhile_of_endsWord hrest fun c hc => by simp [Char.isAlphanum, hc], List.append_nil]
    · intro span
      unfold spelled
      rw [if_pos hd]
      exact hnumeral span

theorem word {first : Char} {tail : List Char} (hfirst : first.isAlpha = true)
    (htail : ∀ c ∈ tail, c.isAlphanum = true) (hrest : EndsWord rest) (h : Spells rest ls) :
    Spells (first :: (tail ++ rest)) (Scanner.word (first :: tail) :: ls) := by
  have hrange := Text.toNat_of_isAlpha hfirst
  refine append (Text.isBlank_eq_false (by omega) (by omega)) ?_ ?_ h
  · unfold pieceTail
    rw [if_neg (Text.isDigit_of_isAlpha hfirst), if_pos hfirst, List.takeWhile_append_of_pos htail,
      takeWhile_of_endsWord hrest fun c hc => hc, List.append_nil]
  · intro span
    unfold spelled
    rw [if_neg (Text.isDigit_of_isAlpha hfirst), if_pos hfirst]

theorem ident {name : String} (hname : IsName name) (hrest : EndsWord rest) (h : Spells rest ls) :
    Spells (chars name ++ rest) (.ident name :: ls) := by
  obtain ⟨first, tail, hletters, hfirst, htail⟩ := hname.letters
  have hword : Scanner.word (first :: tail) = .ident name := by
    unfold Scanner.word
    rw [← hletters, String.ofList_toList, hname.ofSpelling?]
    rfl
  have h := word hfirst htail hrest h
  rw [hword] at h
  unfold chars
  rwa [hletters]

/-- Operators are spelled in front of a blank. -/
theorem op (op : BinaryOp) (h : Spells rest ls) :
    Spells (chars op.symbol ++ ' ' :: rest) (.op op :: ls) := by
  obtain ⟨first, tail, hsymbol, hfirst, htail, hl⟩ : ∃ first tail, chars op.symbol = first :: tail ∧
      Text.isBlank first = false ∧ (∀ rest, pieceTail first (tail ++ ' ' :: rest) = tail) ∧
      ∀ span, spelled first tail span = .ok (.op op) := by
    cases op <;> exact ⟨_, _, rfl, by decide, fun _ => rfl, fun _ => rfl⟩
  rw [hsymbol]
  exact append hfirst (htail rest) hl (.blank (by decide) h)

end Spells

/-- The signs of one character that stand for themselves whatever follows. -/
inductive IsSign : Char → Lexeme → Prop
  | leftParen : IsSign '(' .leftParen
  | rightParen : IsSign ')' .rightParen
  | leftBrace : IsSign '\x7b' .leftBrace
  | rightBrace : IsSign '\x7d' .rightBrace
  | semicolon : IsSign ';' .semicolon
  | minus : IsSign '-' (.op .sub)

theorem Spells.sign {c : Char} {l : Lexeme} {rest : List Char} {ls : List Lexeme} (hc : IsSign c l)
    (h : Spells rest ls) : Spells (c :: rest) (l :: ls) := by
  cases hc <;> exact .piece (by decide) (fun _ => rfl) h

theorem IsSign.endsWord {c : Char} {l : Lexeme} {rest : List Char} (hc : IsSign c l) :
    EndsWord (c :: rest) := by
  intro c' hc'
  cases hc'
  cases hc <;> decide

/-- The characters spell the lexemes in front of every text. -/
def Segment (cs : List Char) (ls : List Lexeme) : Prop :=
  ∀ rest ms, Spells rest ms → Spells (cs ++ rest) (ls ++ ms)

/-- The characters spell the lexemes in front of every text that does not go on with a word. -/
def Phrase (cs : List Char) (ls : List Lexeme) : Prop :=
  ∀ rest ms, EndsWord rest → Spells rest ms → Spells (cs ++ rest) (ls ++ ms)

section Texts

variable {cs ds : List Char} {ls ms : List Lexeme} {c : Char} {l : Lexeme}

theorem Segment.nil : Segment [] [] := fun _ _ h => h

theorem Segment.append (h : Segment cs ls) (h' : Segment ds ms) : Segment (cs ++ ds) (ls ++ ms) := by
  intro rest ks hrest
  rw [List.append_assoc, List.append_assoc]
  exact h _ _ (h' _ _ hrest)

theorem Segment.blanks (hcs : cs.all Text.isBlank = true) : Segment cs [] := by
  intro rest ms h
  induction cs with
  | nil => exact h
  | cons c cs ih =>
    rw [List.all_cons, Bool.and_eq_true] at hcs
    exact .blank hcs.1 (ih hcs.2)

theorem Segment.sign (hc : IsSign c l) : Segment [c] [l] := fun _ _ h => .sign hc h

/-- A sign ends a phrase. -/
theorem Phrase.sign (h : Phrase cs ls) (hc : IsSign c l) : Segment (cs ++ [c]) (ls ++ [l]) := by
  intro rest ms hrest
  rw [List.append_assoc, List.append_assoc]
  exact h _ _ hc.endsWord (.sign hc hrest)

theorem Phrase.sign_cons (hc : IsSign c l) (h : Phrase cs ls) : Phrase (c :: cs) (l :: ls) :=
  fun rest ms hends hrest => .sign hc (h rest ms hends hrest)

/-- Parentheses stand in the layout where they stand among the lexemes. -/
theorem Phrase.parenthesizeIf {need : Bool} (h : Phrase cs ls) :
    Phrase (parenthesizeIf need cs) (parenthesesIf need ls) := by
  cases need with
  | false => exact h
  | true => exact .sign_cons .leftParen fun rest ms _ hrest => h.sign .rightParen rest ms hrest

end Texts

theorem Expr.layout_phrase {e : Expr} (h : e.Spellable) (least : Nat) :
    Phrase (e.layout least) (e.lexemes least) := by
  induction e generalizing least with
  | value n span => exact fun rest ms hends hrest => .num h hends hrest
  | var name span => exact fun rest ms hends hrest => .ident h hends hrest
  | neg a span ih => exact .parenthesizeIf (.sign_cons .minus (ih h Precedence.unary))
  | binary a op b span iha ihb =>
    refine .parenthesizeIf fun rest ms hends hrest => ?_
    have hb := ihb h.2 op.rightOperand rest ms hends hrest
    have ha := iha h.1 op.leftOperand _ _ endsWord_space (.blank (by decide) (.op op hb))
    simpa using ha

/-! ## Lines -/

/-- The lines, each ended by a line feed, spell the lexemes. -/
inductive SpellLines : List (List Char) → List Lexeme → Prop
  | nil : SpellLines [] []
  | cons {line : List Char} {lines : List (List Char)} {ls ms : List Lexeme}
      (h : Segment (line ++ ['\n']) ls) (hlines : SpellLines lines ms) :
      SpellLines (line :: lines) (ls ++ ms)

theorem segment_lineFeed : Segment ['\n'] [] := .blanks (by decide)

theorem Segment.line {cs : List Char} {ls : List Lexeme} (h : Segment cs ls) :
    Segment (cs ++ ['\n']) ls := by
  have := h.append segment_lineFeed
  rwa [List.append_nil] at this

namespace SpellLines

variable {lines lines' : List (List Char)} {ls ms : List Lexeme}

theorem append (h : SpellLines lines ls) (h' : SpellLines lines' ms) :
    SpellLines (lines ++ lines') (ls ++ ms) := by
  induction h with
  | nil => exact h'
  | cons hline _ ih =>
    rw [List.cons_append, List.append_assoc]
    exact .cons hline ih

theorem single {line : List Char} (h : Segment line ls) : SpellLines [line] ls := by
  have := SpellLines.cons h.line .nil
  rwa [List.append_nil] at this

/-- Indentation does not matter. -/
theorem indent (h : SpellLines lines ls) : SpellLines (lines.map indentLine) ls := by
  induction h with
  | nil => exact .nil
  | @cons line lines _ _ hline _ ih =>
    refine .cons ?_ ih
    unfold indentLine
    split
    · exact hline
    · rw [List.append_assoc]
      exact (Segment.blanks (by decide)).append hline

theorem block {heading : List Char} {hs : List Lexeme} (hh : Segment heading hs)
    (h : SpellLines lines ls) : SpellLines (blockLines heading lines) (hs ++ blockLexemes ls) := by
  have hopen : Segment (heading ++ ['\x7b']) (hs ++ [.leftBrace]) := hh.append (.sign .leftBrace)
  unfold blockLines blockLexemes
  split
  · rename_i hempty
    rw [List.isEmpty_iff] at hempty
    subst hempty
    cases h
    have := single (hopen.append (.sign .rightBrace))
    simpa using this
  · have := SpellLines.cons hopen.line (h.indent.append (single (.sign .rightBrace)))
    simpa using this

/-- The text that is made of the lines spells the lexemes. -/
theorem segment (h : SpellLines lines ls) : Segment (lines.flatMap (· ++ ['\n'])) ls := by
  induction h with
  | nil => exact .nil
  | cons hline _ ih =>
    rw [List.flatMap_cons]
    exact hline.append ih

end SpellLines

/-! ## Statements -/

theorem clauseLayout_phrase {e : Option Expr} (h : ∀ a ∈ e, a.Proper) :
    Phrase (clauseLayout e) (clauseLexemes e) := by
  cases e with
  | none => exact fun rest ms _ hrest => hrest
  | some a => exact a.layout_phrase (h a rfl).spellable Precedence.lowest

/-- A keyword in front of a blank and an opening parenthesis. -/
theorem segment_keyword {keyword : String} {first : Char} {tail : List Char} {l : Lexeme}
    (hletters : keyword.toList = first :: tail) (hfirst : first.isAlpha = true)
    (htail : tail.all Char.isAlphanum = true) (hl : Scanner.word (first :: tail) = l) :
    Segment (chars keyword ++ chars " (") [l, .leftParen] := by
  intro rest ms h
  have h := Spells.word hfirst (List.all_eq_true.1 htail) endsWord_space
    (.blank (by decide : Text.isBlank ' ' = true) (.sign .leftParen h))
  rw [hl] at h
  unfold chars
  rw [hletters]
  simpa using h

theorem segment_space : Segment [' '] [] := .blanks (by decide)

theorem conditionHeading_segment {keyword : String} {l : Lexeme} {cond : Expr}
    (hkeyword : Segment (chars keyword ++ chars " (") [l, .leftParen]) (h : cond.Proper) :
    Segment (conditionHeading keyword cond)
      (l :: .leftParen :: cond.lexemes Precedence.lowest ++ [.rightParen]) := by
  have := (hkeyword.append ((cond.layout_phrase h.spellable Precedence.lowest).sign .rightParen)).append
    segment_space
  simpa [conditionHeading, chars] using this

theorem forHeading_segment {init cond update : Option Expr} (hinit : ∀ a ∈ init, a.Proper)
    (hcond : ∀ a ∈ cond, a.Proper) (hupdate : ∀ a ∈ update, a.Proper) :
    Segment (forHeading init cond update)
      (.forWord :: .leftParen :: clauseLexemes init ++ .semicolon :: clauseLexemes cond ++
        .semicolon :: clauseLexemes update ++ [.rightParen]) := by
  have hfor : Segment (chars "for" ++ chars " (") [.forWord, .leftParen] :=
    segment_keyword rfl (by decide) (by decide) rfl
  have := (((hfor.append (((clauseLayout_phrase hinit).sign .semicolon).append segment_space)).append
    (((clauseLayout_phrase hcond).sign .semicolon).append segment_space)).append
    ((clauseLayout_phrase hupdate).sign .rightParen)).append segment_space
  simpa [forHeading, chars] using this

mutual

theorem Stmt.spellLines {s : Stmt} (h : s.Each Expr.Proper) : SpellLines s.lines s.lexemes := by
  cases s with
  | expr e span =>
    exact .single ((e.layout_phrase h.spellable Precedence.lowest).sign .semicolon)
  | block body span => exact .block .nil (statementLines_spell h)
  | ifThen cond body span =>
    have hif : Segment (chars "if" ++ chars " (") [.ifWord, .leftParen] :=
      segment_keyword rfl (by decide) (by decide) rfl
    have := SpellLines.block (conditionHeading_segment hif h.1) (statementLines_spell h.2)
    simpa [Stmt.lines, Stmt.lexemes] using this
  | whileLoop cond body span =>
    have hwhile : Segment (chars "while" ++ chars " (") [.whileWord, .leftParen] :=
      segment_keyword rfl (by decide) (by decide) rfl
    have := SpellLines.block (conditionHeading_segment hwhile h.1) (statementLines_spell h.2)
    simpa [Stmt.lines, Stmt.lexemes] using this
  | forLoop init cond update body span =>
    obtain ⟨hinit, hcond, hupdate, hbody⟩ := h
    have := SpellLines.block (forHeading_segment hinit hcond hupdate) (statementLines_spell hbody)
    simpa [Stmt.lines, Stmt.lexemes] using this

theorem statementLines_spell {p : Program} (h : p.Proper) :
    SpellLines (statementLines p) (statementLexemes p) := by
  cases p with
  | nil => exact .nil
  | cons s rest => exact .append (Stmt.spellLines h.1) (statementLines_spell h.2)

end

/-- A proper program in canonical layout has its lexemes. -/
theorem tokens_print {p : Program} (h : p.Proper) :
    ∃ ts, tokens p.print = .ok ts ∧ ts.map Token.lexeme = statementLexemes p := by
  have hspells : Spells p.print.toList (statementLexemes p) := by
    have := (statementLines_spell h).segment [] [] .nil
    unfold Program.print
    rw [String.toList_ofList]
    simpa using this
  exact tokens_iff_spells.2 hspells

/-- A proper program in canonical layout is read as itself, up to spans, by every parser that may
enter more levels than the layout has tokens. -/
theorem ofTokens_print {p : Program} (h : p.Proper) :
    ∃ ts, tokens p.print = .ok ts ∧ ∀ limit : Int, ts.length < limit →
      ∃ q, Program.ofTokens ts limit = .ok q ∧ sameTrees q p = true := by
  obtain ⟨ts, hts, hlexemes⟩ := tokens_print h
  refine ⟨ts, hts, fun limit hlimit => ?_⟩
  have hderives : Statements (ts.map Token.lexeme) p := by
    rw [hlexemes]
    exact derives_statementLexemes h
  exact ofTokens_complete hderives (Int.le_of_lt hlimit)

/-- A program whose layout needs its parentheses and indents a block. -/
def cubeOfNegative : Program :=
  [.ifThen (.var "x" .none)
    [.expr (.binary (.neg (.value 2 .none) .none) .pow (.value 3 .none) .none) .none] .none]

theorem cubeOfNegative_proper : cubeOfNegative.Proper :=
  ⟨⟨⟨trivial, ⟨⟨'x', [], rfl, by decide, nofun⟩, by decide, by decide, by decide⟩⟩,
    ⟨⟨⟨nofun, trivial, trivial⟩, ⟨by decide, by decide⟩, ⟨by decide, by decide⟩⟩, trivial⟩⟩, trivial⟩

theorem ofTokens_print_cubeOfNegative : cubeOfNegative.Proper ∧
    ∃ ts, tokens cubeOfNegative.print = .ok ts ∧ ∀ limit : Int, ts.length < limit →
      ∃ q, Program.ofTokens ts limit = .ok q ∧ sameTrees q cubeOfNegative = true :=
  ⟨cubeOfNegative_proper, ofTokens_print cubeOfNegative_proper⟩

example : cubeOfNegative.print = "if (x) \x7b\n    (-2) ^ 3;\n\x7d\n" := by decide

end Imp32
