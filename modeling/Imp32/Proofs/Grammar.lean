import Imp32.Token
import Imp32.Program

/-!
# The grammar

The language as a grammar over lexemes, apart from any way of reading it. Expressions come in
layers, the loosest operators in the outermost: `Derives c ts e` says that the lexemes `ts` spell
the expression `e` of the layer `c`. Statements, blocks and programs are derived from these.

Every node may carry any span, so a derivation fixes a tree up to `sameTree` and no further
(`Derives.congr`, `Statements.congr`).
-/

namespace Imp32.Grammar

/-! ## Layers of expressions -/

/-- The layers of expressions, from the loosest to the tightest. -/
inductive Category where
  | expr | cmp | add | mul | un | atom
  deriving DecidableEq, Repr

namespace Category

/-- The next tighter layer. -/
def tighter : Category → Category
  | expr => cmp
  | cmp => add
  | add => mul
  | mul => un
  | un | atom => atom

/-- The operators of a layer whose operators associate to the left. -/
def operators : Category → List BinaryOp
  | cmp => [.eq, .ne, .gt, .ge, .lt, .le]
  | add => [.add, .sub]
  | mul => [.mul, .div]
  | expr | un | atom => []

/-- The greatest precedence that an operator behind an expression of the layer may have without
taking the end of the expression as its left operand. -/
def rank : Category → Nat
  | expr => 0
  | cmp => 2
  | add => 3
  | mul => 4
  | un => 5
  | atom => 6

/-- The greatest precedence that a place may ask for and still take every expression of the
layer. -/
def most : Category → Nat
  | expr => 1
  | cmp => 2
  | add => 3
  | mul => 4
  | un | atom => 6

/-- The layer of the expressions at a place that asks for this precedence. -/
def ofLeast : Nat → Category
  | 0 | 1 => expr
  | 2 => cmp
  | 3 => add
  | 4 => mul
  | 5 | 6 => un
  | _ => atom

theorem rank_le_tighter (c : Category) : c.rank ≤ c.tighter.rank := by
  cases c <;> decide

theorem rank_ofLeast_le_un {least : Nat} (h : least ≤ 6) : (ofLeast least).rank ≤ un.rank := by
  obtain rfl | rfl | rfl | rfl | rfl | rfl | rfl : least = 0 ∨ least = 1 ∨ least = 2 ∨ least = 3 ∨
    least = 4 ∨ least = 5 ∨ least = 6 := by omega
  all_goals decide

end Category

/-- A variable, perhaps in parentheses: what may be assigned to. -/
inductive Target : List Lexeme → Expr → Prop
  | ident (name : String) (span : Span) : Target [.ident name] (.var name span)
  | paren {ts : List Lexeme} {e : Expr} :
    Target ts e → Target (.leftParen :: ts ++ [.rightParen]) e

/-- The lexemes spell an expression of the layer. -/
inductive Derives : Category → List Lexeme → Expr → Prop
  /-- `E → Target = E`. -/
  | assign {xs ys : List Lexeme} {a b : Expr} (span : Span) :
    Target xs a → Derives .expr ys b →
      Derives .expr (xs ++ .op .assign :: ys) (.binary a .assign b span)
  /-- `C → C op C'`, for the operators of a layer `C` and its next tighter layer `C'`. -/
  | infixLeft {c : Category} {op : BinaryOp} {xs ys : List Lexeme} {a b : Expr} (span : Span) :
    op ∈ c.operators → Derives c xs a → Derives c.tighter ys b →
      Derives c (xs ++ .op op :: ys) (.binary a op b span)
  /-- `U → - U`. -/
  | neg {ts : List Lexeme} {a : Expr} (span : Span) :
    Derives .un ts a → Derives .un (.op .sub :: ts) (.neg a span)
  /-- `U → A ^ U`. -/
  | pow {xs ys : List Lexeme} {a b : Expr} (span : Span) :
    Derives .atom xs a → Derives .un ys b →
      Derives .un (xs ++ .op .pow :: ys) (.binary a .pow b span)
  /-- `A → NUM`. -/
  | num (n : Int) (span : Span) : Derives .atom [.num n] (.value n span)
  /-- `A → IDENT`. -/
  | ident (name : String) (span : Span) : Derives .atom [.ident name] (.var name span)
  /-- `A → ( E )`. -/
  | paren {ts : List Lexeme} {e : Expr} :
    Derives .expr ts e → Derives .atom (.leftParen :: ts ++ [.rightParen]) e
  /-- `C → C'`, for each layer `C` and its next tighter layer `C'`. -/
  | tighter {c : Category} {ts : List Lexeme} {e : Expr} :
    Derives c.tighter ts e → Derives c ts e

/-! ## Statements -/

/-- `[E]`. -/
inductive Clause : List Lexeme → Option Expr → Prop
  | absent : Clause [] none
  | present {ts : List Lexeme} {e : Expr} : Derives .expr ts e → Clause ts (some e)

mutual

/-- The lexemes spell a statement. -/
inductive Statement : List Lexeme → Stmt → Prop
  /-- `Stmt → if ( E ) Block`. -/
  | ifThen {ts bs : List Lexeme} {cond : Expr} {body : List Stmt} (span : Span) :
    Derives .expr ts cond → Block bs body →
      Statement (.ifWord :: .leftParen :: ts ++ .rightParen :: bs) (.ifThen cond body span)
  /-- `Stmt → while ( E ) Block`. -/
  | whileLoop {ts bs : List Lexeme} {cond : Expr} {body : List Stmt} (span : Span) :
    Derives .expr ts cond → Block bs body →
      Statement (.whileWord :: .leftParen :: ts ++ .rightParen :: bs) (.whileLoop cond body span)
  /-- `Stmt → for ( [E] ; [E] ; [E] ) Block`. -/
  | forLoop {xs ys zs bs : List Lexeme} {init cond update : Option Expr} {body : List Stmt}
      (span : Span) :
    Clause xs init → Clause ys cond → Clause zs update → Block bs body →
      Statement (.forWord :: .leftParen :: xs ++ .semicolon :: ys ++ .semicolon :: zs ++
        .rightParen :: bs) (.forLoop init cond update body span)
  /-- `Stmt → Block`. -/
  | block {bs : List Lexeme} {body : List Stmt} (span : Span) :
    Block bs body → Statement bs (.block body span)
  /-- `Stmt → E ;`. -/
  | expr {ts : List Lexeme} {e : Expr} (span : Span) :
    Derives .expr ts e → Statement (ts ++ [.semicolon]) (.expr e span)

/-- The lexemes spell a block. -/
inductive Block : List Lexeme → List Stmt → Prop
  /-- A block is `Stmt*` between braces. -/
  | braces {ts : List Lexeme} {body : List Stmt} :
    Statements ts body → Block (.leftBrace :: ts ++ [.rightBrace]) body

/-- The lexemes spell statements in order, `Stmt*`. A program is derived so. -/
inductive Statements : List Lexeme → List Stmt → Prop
  | nil : Statements [] []
  | cons {xs ys : List Lexeme} {s : Stmt} {rest : List Stmt} :
    Statement xs s → Statements ys rest → Statements (xs ++ ys) (s :: rest)

end

/-! ## Moving between the layers -/

section Layers

variable {c : Category} {op : BinaryOp} {xs ys ts : List Lexeme} {a b e : Expr}

/-- An expression of a tighter layer is one of each looser layer. -/
theorem Derives.loosen {c' : Category} (h : Derives c ts e) (hc : c'.rank ≤ c.rank) :
    Derives c' ts e := by
  have hexpr : Derives .cmp ts e → Derives .expr ts e := .tighter (c := .expr)
  have hcmp : Derives .add ts e → Derives .cmp ts e := .tighter (c := .cmp)
  have hadd : Derives .mul ts e → Derives .add ts e := .tighter (c := .add)
  have hmul : Derives .un ts e → Derives .mul ts e := .tighter (c := .mul)
  have hun : Derives .atom ts e → Derives .un ts e := .tighter (c := .un)
  cases c <;> cases c' <;> first | (exfalso; revert hc; decide) | simp_all

theorem Derives.of_target (h : Target ts e) : Derives .atom ts e := by
  induction h with
  | ident name span => exact .ident name span
  | paren _ ih => exact .paren (ih.loosen (by decide))

/-- An expression that is a variable is spelled as a target. -/
theorem Derives.target {name : String} {span : Span} (h : Derives c ts (.var name span)) :
    Target ts (.var name span) := by
  generalize he : Expr.var name span = e at h
  induction h with
  | ident name span => exact .ident name span
  | paren _ ih => exact .paren (ih he)
  | tighter _ ih => exact ih he
  | _ => cases he

theorem Target.exists_var (h : Target ts e) : ∃ name span, e = .var name span := by
  induction h with
  | ident name span => exact ⟨name, span, rfl⟩
  | paren _ ih => exact ih

/-- Every expression begins with a number, a name, a parenthesis or a minus sign. -/
theorem Derives.exists_cons (h : Derives c ts e) :
    ∃ t r, ts = t :: r ∧ (t.spelling? = none ∨ t = .leftParen ∨ t = .op .sub) := by
  have behind : ∀ {xs : List Lexeme} (ys : List Lexeme),
      (∃ t r, xs = t :: r ∧ (t.spelling? = none ∨ t = .leftParen ∨ t = .op .sub)) →
        ∃ t r, xs ++ ys = t :: r ∧ (t.spelling? = none ∨ t = .leftParen ∨ t = .op .sub) := by
    rintro xs ys ⟨t, r, rfl, ht⟩
    exact ⟨t, r ++ ys, rfl, ht⟩
  induction h with
  | assign _ hx =>
    cases hx with
    | ident name _ => exact ⟨.ident name, _, rfl, .inl rfl⟩
    | paren _ => exact ⟨.leftParen, _, rfl, .inr (.inl rfl)⟩
  | infixLeft _ _ _ _ ih => exact behind _ ih
  | neg => exact ⟨.op .sub, _, rfl, .inr (.inr rfl)⟩
  | pow _ _ _ ih => exact behind _ ih
  | num n => exact ⟨.num n, _, rfl, .inl rfl⟩
  | ident name => exact ⟨.ident name, _, rfl, .inl rfl⟩
  | paren => exact ⟨.leftParen, _, rfl, .inr (.inl rfl)⟩
  | tighter _ ih => exact ih

theorem Derives.length_pos (h : Derives c ts e) : 0 < ts.length := by
  obtain ⟨t, r, rfl, -⟩ := h.exists_cons
  exact Nat.zero_lt_succ _

/-- Every block begins with its brace. -/
theorem Block.exists_cons {bs : List Lexeme} {body : List Stmt} (h : Block bs body) :
    ∃ r, bs = .leftBrace :: r := by
  cases h
  exact ⟨_, rfl⟩

/-- Every statement is spelled by a lexeme at least. -/
theorem Statement.length_pos {s : Stmt} (h : Statement ts s) : 0 < ts.length := by
  cases h with
  | block _ hb =>
    obtain ⟨r, rfl⟩ := hb.exists_cons
    simp
  | _ => simp

/-- No statement begins with a closing brace. -/
theorem Statement.ne_rightBrace {s : Stmt} (h : Statement ts s) {t : Lexeme} {r : List Lexeme}
    (ht : ts = t :: r) : t ≠ .rightBrace := by
  rintro rfl
  cases h with
  | block _ hb =>
    obtain ⟨r', rfl⟩ := hb.exists_cons
    cases ht
  | expr _ he =>
    obtain ⟨u, us, rfl, hu⟩ := he.exists_cons
    cases ht
    simp [Lexeme.spelling?] at hu
  | _ => cases ht

end Layers

end Imp32.Grammar

namespace Imp32.BinaryOp

open Grammar

/-- The layer of the expressions that an operator forms. -/
def category : BinaryOp → Category
  | .assign => .expr
  | .eq | .ne | .gt | .ge | .lt | .le => .cmp
  | .add | .sub => .add
  | .mul | .div => .mul
  | .pow => .un

theorem rank_ofLeast_le_category {op : BinaryOp} {least : Nat} (h : least ≤ op.precedence) :
    (Category.ofLeast least).rank ≤ op.category.rank := by
  have h' : least ≤ 6 := Nat.le_trans h (by cases op <;> decide)
  obtain rfl | rfl | rfl | rfl | rfl | rfl | rfl : least = 0 ∨ least = 1 ∨ least = 2 ∨ least = 3 ∨
    least = 4 ∨ least = 5 ∨ least = 6 := by omega
  all_goals revert h; cases op <;> decide

theorem rightOperand_le (op : BinaryOp) : op.rightOperand ≤ op.category.rank + 1 := by
  cases op <;> decide

end Imp32.BinaryOp

namespace Imp32.Grammar

/-- Operands of an operator form an expression of its layer: the left one of a layer that is tight
enough, the right one as its place asks. -/
theorem Derives.binary {c : Category} {op : BinaryOp} {xs ys : List Lexeme} {a b : Expr}
    (span : Span) (ha : Derives c xs a) (hc : op.precedence ≤ c.rank)
    (hvar : op = .assign → ∃ name span, a = .var name span)
    (hb : Derives (.ofLeast op.rightOperand) ys b) :
    Derives op.category (xs ++ .op op :: ys) (.binary a op b span) := by
  have left : ∀ c' : Category, c'.rank ≤ c.rank → Derives c' xs a := fun _ h => ha.loosen h
  cases op with
  | assign =>
    obtain ⟨name, s, rfl⟩ := hvar rfl
    exact .assign span ha.target hb
  | pow => exact .pow span (left .atom hc) hb
  | add | sub => exact .infixLeft (c := .add) span (by decide) (left .add hc) hb
  | mul | div => exact .infixLeft (c := .mul) span (by decide) (left .mul hc) hb
  | _ => exact .infixLeft (c := .cmp) span (by decide) (left .cmp hc) hb

/-! ## Trees up to their spans -/

theorem Target.congr {ts : List Lexeme} {e e' : Expr} (h : Target ts e)
    (hs : e.sameTree e' = true) : Target ts e' := by
  induction h with
  | ident name span =>
    cases e' <;> simp only [Expr.sameTree, decide_eq_true_eq, Bool.false_eq_true] at hs
    subst hs
    exact .ident _ _
  | paren _ ih => exact .paren (ih hs)

theorem Derives.congr {c : Category} {ts : List Lexeme} {e e' : Expr} (h : Derives c ts e)
    (hs : e.sameTree e' = true) : Derives c ts e' := by
  induction h generalizing e' with
  | assign span hx _ ih =>
    cases e' <;> simp only [Expr.sameTree, Bool.and_eq_true, decide_eq_true_eq,
      Bool.false_eq_true] at hs
    obtain ⟨⟨ha, rfl⟩, hb⟩ := hs
    exact .assign _ (hx.congr ha) (ih hb)
  | infixLeft span hop _ _ iha ihb =>
    cases e' <;> simp only [Expr.sameTree, Bool.and_eq_true, decide_eq_true_eq,
      Bool.false_eq_true] at hs
    obtain ⟨⟨ha, rfl⟩, hb⟩ := hs
    exact .infixLeft _ hop (iha ha) (ihb hb)
  | neg span _ ih =>
    cases e' <;> simp only [Expr.sameTree, Bool.false_eq_true] at hs
    exact .neg _ (ih hs)
  | pow span _ _ iha ihb =>
    cases e' <;> simp only [Expr.sameTree, Bool.and_eq_true, decide_eq_true_eq,
      Bool.false_eq_true] at hs
    obtain ⟨⟨ha, rfl⟩, hb⟩ := hs
    exact .pow _ (iha ha) (ihb hb)
  | num n span =>
    cases e' <;> simp only [Expr.sameTree, decide_eq_true_eq, Bool.false_eq_true] at hs
    subst hs
    exact .num _ _
  | ident name span =>
    cases e' <;> simp only [Expr.sameTree, decide_eq_true_eq, Bool.false_eq_true] at hs
    subst hs
    exact .ident _ _
  | paren _ ih => exact .paren (ih hs)
  | tighter _ ih => exact .tighter (ih hs)

theorem Clause.congr {ts : List Lexeme} {e e' : Option Expr} (h : Clause ts e)
    (hs : sameClause e e' = true) : Clause ts e' := by
  cases h with
  | absent => cases e' <;> simp_all [sameClause, Clause.absent]
  | present h =>
    cases e' <;> simp only [sameClause, Bool.false_eq_true] at hs
    exact .present (h.congr hs)

mutual

theorem Statement.congr {ts : List Lexeme} {s s' : Stmt} (h : Statement ts s)
    (hs : s.sameTree s' = true) : Statement ts s' := by
  cases h with
  | ifThen span hc hb =>
    cases s' <;> simp only [Stmt.sameTree, Bool.and_eq_true, Bool.false_eq_true] at hs
    exact .ifThen _ (hc.congr hs.1) (Block.congr hb hs.2)
  | whileLoop span hc hb =>
    cases s' <;> simp only [Stmt.sameTree, Bool.and_eq_true, Bool.false_eq_true] at hs
    exact .whileLoop _ (hc.congr hs.1) (Block.congr hb hs.2)
  | forLoop span hi hc hu hb =>
    cases s' <;> simp only [Stmt.sameTree, Bool.and_eq_true, Bool.false_eq_true] at hs
    obtain ⟨⟨⟨hsi, hsc⟩, hsu⟩, hsb⟩ := hs
    exact .forLoop _ (hi.congr hsi) (hc.congr hsc) (hu.congr hsu) (Block.congr hb hsb)
  | block span hb =>
    cases s' <;> simp only [Stmt.sameTree, Bool.false_eq_true] at hs
    exact .block _ (Block.congr hb hs)
  | expr span he =>
    cases s' <;> simp only [Stmt.sameTree, Bool.false_eq_true] at hs
    exact .expr _ (he.congr hs)

theorem Block.congr {ts : List Lexeme} {body body' : List Stmt} (h : Block ts body)
    (hs : sameTrees body body' = true) : Block ts body' := by
  cases h with
  | braces h => exact .braces (Statements.congr h hs)

/-- Spans do not matter to a derivation. -/
theorem Statements.congr {ts : List Lexeme} {p q : List Stmt} (h : Statements ts p)
    (hs : sameTrees p q = true) : Statements ts q := by
  cases h with
  | nil => cases q <;> simp_all [sameTrees, Statements.nil]
  | cons h hrest =>
    cases q <;> simp only [sameTrees, Bool.and_eq_true, Bool.false_eq_true] at hs
    exact .cons (Statement.congr h hs.1) (Statements.congr hrest hs.2)

end

end Imp32.Grammar
