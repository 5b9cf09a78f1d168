import Imp32.Proofs.Munch
import Imp32.Proofs.Nesting
import Imp32.Proofs.Parentheses

/-!
# The shortest text of a program

No text of a program has fewer tokens than its canonical layout (`print_shortest`). Whatever lexemes
derive a program, those of the layout are the same without some of the parentheses (`Trims`): the
places at which the layout writes a parenthesis are those at which the grammar asks for a tighter
layer than the expression has.

So no parenthesis of the layout can be left out. A text without it has fewer parentheses than the
layout, and the same number of them among its tokens (`Spells.countP_parens`).
-/

namespace Imp32

open Grammar

/-! ## Lexemes without some of the parentheses -/

/-- The lexemes are others without some of their parentheses. -/
structure Trims (ls ts : List Lexeme) : Prop where
  sublist : ls.Sublist ts
  others : ls.countP (!·.isParen) = ts.countP (!·.isParen)

namespace Trims

variable {ls ls' ts ts' : List Lexeme} {l : Lexeme}

theorem refl (ls : List Lexeme) : Trims ls ls := ⟨List.Sublist.refl ls, rfl⟩

theorem append (h : Trims ls ts) (h' : Trims ls' ts') : Trims (ls ++ ls') (ts ++ ts') where
  sublist := h.sublist.append h'.sublist
  others := by rw [List.countP_append, List.countP_append, h.others, h'.others]

theorem cons (l : Lexeme) (h : Trims ls ts) : Trims (l :: ls) (l :: ts) :=
  (refl [l]).append h

theorem concat (h : Trims ls ts) (l : Lexeme) : Trims (ls ++ [l]) (ts ++ [l]) :=
  h.append (refl [l])

/-- Parentheses around the lexemes, which may be left out. -/
theorem paren (h : Trims ls ts) : Trims ls (.leftParen :: ts ++ [.rightParen]) where
  sublist := (h.sublist.cons .leftParen).trans (List.sublist_append_left _ _)
  others := by
    rw [h.others, List.countP_append, List.countP_cons_of_neg (by decide)]
    rfl

theorem parenthesesIf (need : Bool) (h : Trims ls ts) :
    Trims (parenthesesIf need ls) (.leftParen :: ts ++ [.rightParen]) := by
  cases need with
  | false => exact h.paren
  | true => exact (h.cons .leftParen).concat .rightParen

theorem length_le (h : Trims ls ts) : ls.length ≤ ts.length := h.sublist.length_le

theorem countP_parens_le (h : Trims ls ts) :
    ls.countP Lexeme.isParen ≤ ts.countP Lexeme.isParen :=
  h.sublist.countP_le

end Trims

/-! ## The lexemes of the layout at a place -/

namespace Expr

theorem lexemes_neg {a : Expr} {span : Span} {least : Nat} (h : least ≤ Precedence.power) :
    (neg a span).lexemes least = .op .sub :: a.lexemes Precedence.unary := by
  conv =>
    lhs
    unfold lexemes
  rw [decide_eq_false (Nat.not_lt.2 h)]
  rfl

theorem lexemes_binary {a b : Expr} {op : BinaryOp} {span : Span} {least : Nat}
    (h : least ≤ op.precedence) :
    (binary a op b span).lexemes least =
      a.lexemes op.leftOperand ++ .op op :: b.lexemes op.rightOperand := by
  conv =>
    lhs
    unfold lexemes
  rw [decide_eq_false (Nat.not_lt.2 h)]
  rfl

/-- At every place, an expression has its lexemes with parentheses around them or without. -/
theorem exists_lexemes_eq (e : Expr) (least : Nat) :
    ∃ need, e.lexemes least = parenthesesIf need (e.lexemes Precedence.lowest) := by
  cases e with
  | value n span => exact ⟨false, rfl⟩
  | var name span => exact ⟨false, rfl⟩
  | neg a span =>
    rw [lexemes_neg (Precedence.lowest_le _)]
    exact ⟨_, rfl⟩
  | binary a op b span =>
    rw [lexemes_binary (Precedence.lowest_le _)]
    exact ⟨_, rfl⟩

end Expr

/-- A place that takes the expressions of an operator's layer takes the operator. -/
theorem BinaryOp.le_precedence_of_rank {op : BinaryOp} {least : Nat}
    (h : (Category.ofLeast least).rank ≤ op.category.rank) : least ≤ op.precedence := by
  rcases Nat.lt_or_ge 6 least with hlarge | hsmall
  · obtain ⟨k, rfl⟩ : ∃ k, least = k + 7 := ⟨least - 7, by omega⟩
    revert h
    cases op <;> exact fun h => absurd h (by decide : ¬Category.atom.rank ≤ _)
  · obtain rfl | rfl | rfl | rfl | rfl | rfl | rfl : least = 0 ∨ least = 1 ∨ least = 2 ∨
      least = 3 ∨ least = 4 ∨ least = 5 ∨ least = 6 := by omega
    all_goals revert h; cases op <;> decide

/-! ## What derives a program has the lexemes of the layout -/

namespace Grammar

variable {ts : List Lexeme}

theorem Target.trims {name : String} {span : Span} (h : Target ts (.var name span)) :
    Trims [.ident name] ts := by
  generalize he : Expr.var name span = e at h
  induction h with
  | ident name span =>
    cases he
    exact .refl _
  | paren _ ih => exact (ih he).paren

/-- At every place that takes expressions of the layer. -/
theorem Derives.trims {c : Category} {e : Expr} (h : Derives c ts e) :
    ∀ least, (Category.ofLeast least).rank ≤ c.rank → Trims (e.lexemes least) ts := by
  induction h with
  | assign span hx _ ih =>
    intro least hleast
    obtain ⟨name, s, rfl⟩ := hx.exists_var
    rw [Expr.lexemes_binary (BinaryOp.le_precedence_of_rank hleast)]
    exact hx.trims.append ((ih _ (by decide)).cons _)
  | @infixLeft c op xs ys a b span hop _ _ iha ihb =>
    intro least hleast
    obtain ⟨hlayer, hleft, hright⟩ : c = op.category ∧
        (Category.ofLeast op.leftOperand).rank ≤ c.rank ∧
        (Category.ofLeast op.rightOperand).rank ≤ c.tighter.rank := by
      revert hop
      cases c <;> cases op <;> decide
    rw [Expr.lexemes_binary (BinaryOp.le_precedence_of_rank (hlayer ▸ hleast))]
    exact (iha _ hleft).append ((ihb _ hright).cons _)
  | neg span _ ih =>
    intro least hleast
    have hpower : least ≤ BinaryOp.pow.precedence := BinaryOp.le_precedence_of_rank hleast
    rw [Expr.lexemes_neg hpower]
    exact (ih _ (by decide)).cons _
  | pow span _ _ iha ihb =>
    intro least hleast
    rw [Expr.lexemes_binary (BinaryOp.le_precedence_of_rank hleast)]
    exact (iha _ (by decide)).append ((ihb _ (by decide)).cons _)
  | num n span => exact fun _ _ => .refl _
  | ident name span => exact fun _ _ => .refl _
  | @paren ts e _ ih =>
    intro least _
    obtain ⟨need, hneed⟩ := e.exists_lexemes_eq least
    rw [hneed]
    exact (ih _ (by decide)).parenthesesIf need
  | @tighter c _ _ _ ih =>
    exact fun least hleast => ih least (Nat.le_trans hleast c.rank_le_tighter)

theorem Derives.trims_lowest {e : Expr} (h : Derives .expr ts e) :
    Trims (e.lexemes Precedence.lowest) ts :=
  h.trims _ (by decide)

theorem Clause.trims {e : Option Expr} (h : Clause ts e) : Trims (clauseLexemes e) ts := by
  cases h with
  | absent => exact .refl _
  | present h => exact h.trims_lowest

mutual

theorem Statement.trims : ∀ {ts : List Lexeme} {s : Stmt}, Statement ts s → Trims s.lexemes ts
  | _, _, .ifThen _ hc hb =>
    ((hc.trims_lowest.cons .leftParen).cons .ifWord).append (hb.trims.cons .rightParen)
  | _, _, .whileLoop _ hc hb =>
    ((hc.trims_lowest.cons .leftParen).cons .whileWord).append (hb.trims.cons .rightParen)
  | _, _, .forLoop _ hi hc hu hb =>
    have hinit := (hi.trims.cons .leftParen).cons .forWord
    ((hinit.append (hc.trims.cons .semicolon)).append (hu.trims.cons .semicolon)).append
      (hb.trims.cons .rightParen)
  | _, _, .block _ hb => hb.trims
  | _, _, .expr _ he => he.trims_lowest.concat .semicolon

theorem Block.trims : ∀ {ts : List Lexeme} {body : List Stmt}, Block ts body →
    Trims (blockLexemes (statementLexemes body)) ts
  | _, _, .braces h => (h.trims.cons .leftBrace).concat .rightBrace

/-- Whatever derives a program has the lexemes of its layout, and perhaps more parentheses. -/
theorem Statements.trims : ∀ {ts : List Lexeme} {p : List Stmt}, Statements ts p →
    Trims (statementLexemes p) ts
  | _, _, .nil => .refl _
  | _, _, .cons h hrest => h.trims.append hrest.trims

end

end Grammar

/-! ## Parentheses of a text -/

def Text.isParen (c : Char) : Bool :=
  c = '(' || c = ')'

/-- What holds of neither parenthesis holds of no parenthesis. -/
theorem Text.isParen_eq_false {test : Char → Bool} (hleft : test '(' = false)
    (hright : test ')' = false) {c : Char} (h : test c = true) : Text.isParen c = false := by
  unfold Text.isParen
  rw [Bool.or_eq_false_iff]
  constructor <;> refine decide_eq_false ?_ <;> rintro rfl
  · exact absurd h (Bool.eq_false_iff.1 hleft)
  · exact absurd h (Bool.eq_false_iff.1 hright)

/-- A parenthesis is written with one character, and no other lexeme with any. -/
theorem Lexeme.SpelledBy.countP_parens {l : Lexeme} {xs : List Char} (h : l.SpelledBy xs) :
    xs.countP Text.isParen = [l].countP Lexeme.isParen := by
  have word : ∀ {xs : List Char}, (∀ c ∈ xs, c.isAlphanum = true) → xs.countP Text.isParen = 0 :=
    fun hxs => List.countP_eq_zero.2 fun c hc =>
      Bool.eq_false_iff.1 (Text.isParen_eq_false (by decide) (by decide) (hxs c hc))
  cases h with
  | fixed hl =>
    cases l with
    | op op => cases hl; cases op <;> decide
    | num _ => cases hl
    | ident _ => cases hl
    | _ => cases hl; decide
  | num _ hdigits => exact word fun c hc => by simp [Char.isAlphanum, hdigits c hc]
  | ident hname =>
    obtain ⟨first, rest, hletters, hfirst, hrest⟩ := hname.letters
    refine word fun c hc => ?_
    rw [hletters] at hc
    obtain rfl | hc := List.mem_cons.1 hc
    · simp [Char.isAlphanum, hfirst]
    · exact hrest c hc

/-- A text has as many parentheses as its lexemes. -/
theorem Spells.countP_parens {cs : List Char} {ls : List Lexeme} (h : Spells cs ls) :
    cs.countP Text.isParen = ls.countP Lexeme.isParen := by
  induction h with
  | nil => rfl
  | blank hc _ ih =>
    have hparen := Text.isParen_eq_false (by decide) (by decide) hc
    rw [List.countP_cons_of_neg (Bool.eq_false_iff.1 hparen), ih]
  | @piece first rest l ls _ hl _ ih =>
    have hpiece := (Scanner.spelledBy_of_spelled (hl .none)).1.countP_parens
    rw [← List.singleton_append (l := ls), List.countP_append, ← hpiece, ← ih,
      ← List.countP_append, List.cons_append, Scanner.pieceTail_append_drop]

/-- The text is another one without some of its parentheses. -/
structure DropsParens (source text : String) : Prop where
  sublist : text.toList.Sublist source.toList
  others : text.toList.countP (!Text.isParen ·) = source.toList.countP (!Text.isParen ·)
  ne : text ≠ source

theorem DropsParens.countP_lt {source text : String} (h : DropsParens source text) :
    text.toList.countP Text.isParen < source.toList.countP Text.isParen := by
  have hlength : text.toList.length < source.toList.length := by
    refine Nat.lt_of_le_of_ne h.sublist.length_le fun heq => h.ne ?_
    exact String.toList_inj.1 (h.sublist.eq_of_length heq)
  have hsplit : ∀ cs : List Char,
      cs.length = cs.countP Text.isParen + cs.countP (!Text.isParen ·) := fun cs => by
    simpa using List.length_eq_countP_add_countP Text.isParen (l := cs)
  rw [hsplit, hsplit source.toList, h.others] at hlength
  omega

/-! ## The layout is the shortest text -/

/-- Tokens that are read as a program, up to spans, have the lexemes of its layout and perhaps more
parentheses. -/
theorem trims_of_reads {us : List Token} {limit : Int} {p q : Program}
    (h : Program.ofTokens us limit = .ok q) (hsame : sameTrees q p = true) :
    Trims (statementLexemes p) (us.map Token.lexeme) :=
  ((ofTokens_sound h).congr hsame).trims

/-- The layout of a proper program has as many parentheses as its lexemes. -/
theorem countP_parens_print {p : Program} (h : p.Proper) :
    p.print.toList.countP Text.isParen = (statementLexemes p).countP Lexeme.isParen := by
  obtain ⟨ts, hts, hlexemes⟩ := tokens_print h
  exact hlexemes ▸ (tokens_iff_spells.1 ⟨ts, hts, rfl⟩).countP_parens

/-- Without some of the parentheses of its layout, a program is not read. -/
theorem sameTrees_of_dropsParens {text : String} {limit : Int} {p q : Program} (h : p.Proper)
    (hdrops : DropsParens p.print text) (hread : Program.parse text limit = .ok q) :
    sameTrees q p = false := by
  rw [Bool.eq_false_iff]
  intro hsame
  obtain ⟨us, hus, hq⟩ := Program.parse_eq_ok.1 hread
  have hfewer := hdrops.countP_lt
  rw [countP_parens_print h, (tokens_iff_spells.1 ⟨us, hus, rfl⟩).countP_parens] at hfewer
  exact absurd (trims_of_reads hq hsame).countP_parens_le (Nat.not_le.2 hfewer)

/-- These are the tokens of the layout of the program. They are read as it under the limit, and no
tokens that are read as it are fewer; nor is a text read as it that lacks some parentheses of the
layout. -/
structure Shortest (p : Program) (limit : Int) (ts : List Token) : Prop where
  printed : tokens p.print = .ok ts
  reads : ∃ q, Program.ofTokens ts limit = .ok q ∧ sameTrees q p = true
  fewest : ∀ us limit' q, Program.ofTokens us limit' = .ok q → sameTrees q p = true →
    ts.length ≤ us.length
  needed : ∀ text limit' q, DropsParens p.print text → Program.parse text limit' = .ok q →
    sameTrees q p = false

/-- No text that is read as a program has fewer tokens than the layout of the program, which needs
each of its parentheses. -/
theorem print_shortest {source : String} {limit : Int} {p : Program}
    (h : Program.parse source limit = .ok p) :
    ∃ ts, Shortest p limit ts ∧ ∃ ss, tokens source = .ok ss ∧ ts.length ≤ ss.length := by
  have hproper := parse_proper h
  obtain ⟨ss, hss, hp⟩ := Program.parse_eq_ok.1 h
  obtain ⟨q, hq, hsame⟩ := parse_print hproper (ofTokens_within hp)
  obtain ⟨ts, hts, hread⟩ := Program.parse_eq_ok.1 hq
  obtain ⟨ts', hts', hlexemes⟩ := tokens_print hproper
  obtain rfl : ts = ts' := Except.ok.inj (hts.symm.trans hts')
  have hfewest : ∀ us limit' q, Program.ofTokens us limit' = .ok q → sameTrees q p = true →
      ts.length ≤ us.length := fun us limit' q hus hsame => by
    have := (trims_of_reads hus hsame).length_le
    rwa [← hlexemes, List.length_map, List.length_map] at this
  refine ⟨ts, ⟨hts, ⟨q, hread, hsame⟩, hfewest, fun text limit' q hdrops hread' => ?_⟩, ss, hss, ?_⟩
  · exact sameTrees_of_dropsParens hproper hdrops hread'
  · exact hfewest ss limit p hp (sameTrees_refl p)

/-- A text of 26 tokens, of which its layout keeps 20. -/
def manyParens : String := "(x) = ((-2)^(-3))^2 - (y = (1));"

theorem print_shortest_manyParens : ∃ p ts ss, Program.parse manyParens 9 = .ok p ∧
    p.print = "x = ((-2) ^ -3) ^ 2 - (y = 1);\n" ∧ Shortest p 9 ts ∧ tokens manyParens = .ok ss ∧
      ss.length = 26 ∧ ts.length ≤ ss.length := by
  have hprint : (Program.parse manyParens 9).toOption.map Program.print =
      some "x = ((-2) ^ -3) ^ 2 - (y = 1);\n" := by decide +kernel
  have hlength : (tokens manyParens).toOption.map List.length = some 26 := by decide +kernel
  cases h : Program.parse manyParens 9 with
  | error e =>
    rw [h] at hprint
    cases hprint
  | ok p =>
    rw [h] at hprint
    obtain ⟨ts, hshort, ss, hss, hle⟩ := print_shortest h
    rw [hss] at hlength
    exact ⟨p, ts, ss, rfl, Option.some.inj hprint, hshort, hss, Option.some.inj hlength, hle⟩

end Imp32
