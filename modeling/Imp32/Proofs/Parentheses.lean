import Imp32.Proofs.Grammar
import Imp32.Proofs.Nodes

/-!
# Parentheses

The parentheses of lexemes match if reading from left to right none is closed that is not open, and
none is open at the end. What derives an expression has parentheses that match, and its other
lexemes are as many as the expression has parts (`Frames`).
-/

namespace Imp32

open Grammar

/-! ## Parentheses -/

/-- The number of open parentheses behind the lexeme, unless it closes one where none is open. -/
def Lexeme.nest? (depth : Nat) : Lexeme → Option Nat
  | leftParen => some (depth + 1)
  | rightParen => if depth = 0 then none else some (depth - 1)
  | _ => some depth

/-- The number of open parentheses behind the lexemes, if none is closed that is not open. -/
def nestAll? (depth : Nat) (ls : List Lexeme) : Option Nat :=
  ls.foldlM Lexeme.nest? depth

/-- Each parenthesis that is opened is closed, and none is closed that is not open. -/
def ParensMatch (ls : List Lexeme) : Prop :=
  nestAll? 0 ls = some 0

instance (ls : List Lexeme) : Decidable (ParensMatch ls) :=
  inferInstanceAs (Decidable (nestAll? 0 ls = some 0))

def Lexeme.isParen (l : Lexeme) : Bool :=
  l = leftParen || l = rightParen

section Parens

variable {l : Lexeme} {xs ys ls : List Lexeme} {depth depth' : Nat}

theorem nestAll?_cons (depth : Nat) (l : Lexeme) (ls : List Lexeme) :
    nestAll? depth (l :: ls) = (l.nest? depth).bind (nestAll? · ls) :=
  List.foldlM_cons

theorem nestAll?_append (depth : Nat) (xs ys : List Lexeme) :
    nestAll? depth (xs ++ ys) = (nestAll? depth xs).bind (nestAll? · ys) :=
  List.foldlM_append

theorem nest?_of_isParen (h : l.isParen = false) (depth : Nat) : l.nest? depth = some depth := by
  cases l with
  | leftParen => cases h
  | rightParen => cases h
  | _ => rfl

/-- With more parentheses open in front, there are as many more open behind. -/
theorem nest?_add (h : l.nest? depth = some depth') (more : Nat) :
    l.nest? (depth + more) = some (depth' + more) := by
  cases l with
  | leftParen => cases h; exact congrArg some (Nat.add_right_comm _ _ _)
  | rightParen =>
    simp only [Lexeme.nest?, Option.ite_none_left_eq_some, Option.some.injEq] at h ⊢
    omega
  | _ => cases h; rfl

theorem nestAll?_add (h : nestAll? depth ls = some depth') (more : Nat) :
    nestAll? (depth + more) ls = some (depth' + more) := by
  induction ls generalizing depth with
  | nil => cases h; rfl
  | cons l ls ih =>
    rw [nestAll?_cons] at h ⊢
    obtain ⟨middle, hl, hls⟩ := Option.bind_eq_some_iff.1 h
    rw [nest?_add hl, Option.bind_some, ih hls]

theorem ParensMatch.nestAll? (h : ParensMatch xs) (depth : Nat) :
    nestAll? depth xs = some depth := by
  have := nestAll?_add h depth
  rwa [Nat.zero_add] at this

theorem ParensMatch.append (hx : ParensMatch xs) (hy : ParensMatch ys) :
    ParensMatch (xs ++ ys) := by
  unfold ParensMatch
  rw [nestAll?_append, hx, Option.bind_some, hy]

theorem ParensMatch.cons (hl : l.isParen = false) (h : ParensMatch ls) : ParensMatch (l :: ls) := by
  unfold ParensMatch
  rw [nestAll?_cons, nest?_of_isParen hl, Option.bind_some, h]

theorem ParensMatch.paren (h : ParensMatch ls) :
    ParensMatch (.leftParen :: ls ++ [.rightParen]) := by
  unfold ParensMatch
  rw [List.cons_append, nestAll?_cons]
  show Imp32.nestAll? 1 (ls ++ [.rightParen]) = some 0
  rw [nestAll?_append, h.nestAll?]
  rfl

/-- What stands at the front of lexemes whose parentheses match closes none of the others. -/
theorem not_parensMatch_cons (h : ParensMatch (xs ++ ys)) : ¬ParensMatch (.leftParen :: xs) := by
  intro hmatch
  unfold ParensMatch at h
  rw [nestAll?_append] at h
  obtain ⟨open_, hopen, -⟩ := Option.bind_eq_some_iff.1 h
  have hmore : nestAll? 1 xs = some 0 := hmatch
  have hsucc := nestAll?_add hopen 1
  rw [Nat.zero_add, hmore] at hsucc
  cases hsucc

end Parens

/-! ## Counting -/

/-- The lexemes match an expression as far as counting tells: their parentheses match, and the
others are as many as the expression has parts. -/
structure Frames (ls : List Lexeme) (e : Expr) : Prop where
  parens : ParensMatch ls
  count : ls.countP (!·.isParen) = e.parts.length

section Frames

variable {l : Lexeme} {xs ys ls : List Lexeme} {a b e : Expr} {op : BinaryOp} {span : Span}

theorem frames_single (hl : l.isParen = false) (he : e.parts.length = 1) : Frames [l] e where
  parens := .cons hl rfl
  count := by simp [hl, he]

theorem Frames.neg (h : Frames ls a) : Frames (.op .sub :: ls) (.neg a span) where
  parens := .cons rfl h.parens
  count := by
    rw [List.countP_cons_of_pos rfl, h.count]
    rfl

theorem Frames.binary (ha : Frames xs a) (hb : Frames ys b) :
    Frames (xs ++ .op op :: ys) (.binary a op b span) where
  parens := ha.parens.append (.cons rfl hb.parens)
  count := by
    rw [List.countP_append, List.countP_cons_of_pos rfl, ha.count, hb.count, Expr.parts,
      List.length_cons, List.length_append, Nat.add_assoc]

theorem Frames.paren (h : Frames ls e) : Frames (.leftParen :: ls ++ [.rightParen]) e where
  parens := h.parens.paren
  count := by
    rw [List.countP_append, List.countP_cons_of_neg (by decide), h.count]
    rfl

theorem Frames.ne_nil (h : Frames ls e) : ls ≠ [] := by
  rintro rfl
  have hpos := List.length_pos_of_mem e.mem_parts
  rw [← h.count] at hpos
  cases hpos

theorem Grammar.Target.frames (h : Target ls e) : Frames ls e := by
  induction h with
  | ident => exact frames_single rfl rfl
  | paren _ ih => exact ih.paren

theorem Grammar.Derives.frames {c : Category} (h : Derives c ls e) : Frames ls e := by
  induction h with
  | assign _ hx _ ih => exact hx.frames.binary ih
  | infixLeft _ _ _ _ iha ihb => exact iha.binary ihb
  | neg _ _ ih => exact ih.neg
  | pow _ _ _ iha ihb => exact iha.binary ihb
  | num => exact frames_single rfl rfl
  | ident => exact frames_single rfl rfl
  | paren _ ih => exact ih.paren
  | tighter _ ih => exact ih

end Frames

end Imp32
