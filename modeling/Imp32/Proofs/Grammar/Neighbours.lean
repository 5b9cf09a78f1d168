import Imp32.Proofs.Grammar
import Mathlib.Data.List.Chain

/-!
# Neighbouring lexemes

Of two neighbouring lexemes of a program, one is a sign or a keyword (`Statements.separated`): every
rule of the grammar puts one between the parts it joins. So no number and no name is directly
followed by another.
-/

namespace Imp32.Grammar

/-- Of two neighbours, one has only one spelling. -/
def Separated (ts : List Lexeme) : Prop :=
  ts.IsChain fun l l' => l.spelling?.isSome ∨ l'.spelling?.isSome

section Separated

variable {xs ys ts : List Lexeme} {l : Lexeme} {c : Category} {e : Expr}

theorem Separated.singleton (l : Lexeme) : Separated [l] :=
  List.isChain_singleton l

/-- Parts with a sign or a keyword between them do not touch. -/
theorem Separated.join (hx : Separated xs) (hl : l.spelling?.isSome) (hy : Separated ys) :
    Separated (xs ++ l :: ys) := by
  refine List.isChain_append.2 ⟨hx, List.isChain_cons.2 ⟨fun _ _ => .inl hl, hy⟩, ?_⟩
  intro _ _ l' hl'
  cases hl'
  exact .inr hl

theorem Separated.cons (hl : l.spelling?.isSome) (hy : Separated ys) : Separated (l :: ys) :=
  Separated.join List.isChain_nil hl hy

/-- What ends with a sign or a keyword does not touch what follows. -/
theorem Separated.append (hx : Separated xs) (hend : ∃ zs l, xs = zs ++ [l] ∧ l.spelling?.isSome)
    (hy : Separated ys) : Separated (xs ++ ys) := by
  obtain ⟨zs, l, rfl, hl⟩ := hend
  have hfirst : Separated zs := (List.isChain_append.1 hx).1
  rw [List.append_assoc]
  exact hfirst.join hl hy

theorem Separated.concat (hx : Separated xs) (hl : l.spelling?.isSome) : Separated (xs ++ [l]) :=
  hx.join hl List.isChain_nil

theorem Target.separated (h : Target ts e) : Separated ts := by
  induction h with
  | ident name => exact .singleton _
  | paren _ ih => exact (ih.cons (l := .leftParen) rfl).concat rfl

theorem Derives.separated (h : Derives c ts e) : Separated ts := by
  induction h with
  | assign _ hx _ ih => exact hx.separated.join rfl ih
  | infixLeft _ _ _ _ iha ihb => exact iha.join rfl ihb
  | neg _ _ ih => exact ih.cons rfl
  | pow _ _ _ iha ihb => exact iha.join rfl ihb
  | num n => exact .singleton _
  | ident name => exact .singleton _
  | paren _ ih => exact (ih.cons (l := .leftParen) rfl).concat rfl
  | tighter _ ih => exact ih

theorem Clause.separated {e : Option Expr} (h : Clause ts e) : Separated ts := by
  cases h with
  | absent => exact List.isChain_nil
  | present h => exact h.separated

/-- Every statement ends with a semicolon or a brace. -/
theorem Statement.exists_closing {s : Stmt} (h : Statement ts s) :
    ∃ xs l, ts = xs ++ [l] ∧ (l = .semicolon ∨ l = .rightBrace) := by
  have behind : ∀ (xs : List Lexeme) {bs : List Lexeme} {body : List Stmt}, Block bs body →
      ∃ ys l, xs ++ bs = ys ++ [l] ∧ (l = .semicolon ∨ l = .rightBrace) := by
    intro xs bs body hb
    cases hb
    exact ⟨xs ++ _, .rightBrace, (List.append_assoc _ _ _).symm, .inr rfl⟩
  cases h with
  | ifThen _ _ hb =>
    rw [List.append_cons]
    exact behind _ hb
  | whileLoop _ _ hb =>
    rw [List.append_cons]
    exact behind _ hb
  | forLoop _ _ _ _ hb =>
    rw [List.append_cons]
    exact behind _ hb
  | block _ hb => exact behind [] hb
  | expr _ _ => exact ⟨_, .semicolon, rfl, .inl rfl⟩

theorem Statement.exists_concat {s : Stmt} (h : Statement ts s) :
    ∃ xs l, ts = xs ++ [l] ∧ l.spelling?.isSome := by
  obtain ⟨xs, l, rfl, rfl | rfl⟩ := h.exists_closing
  · exact ⟨xs, .semicolon, rfl, rfl⟩
  · exact ⟨xs, .rightBrace, rfl, rfl⟩

/-- A program ends as its last statement does. -/
theorem Statements.getLast? {p : List Stmt} : ∀ {ts : List Lexeme}, Statements ts p →
    ∀ l ∈ ts.getLast?, l = .semicolon ∨ l = .rightBrace := by
  induction p with
  | nil =>
    intro ts h l hl
    cases h
    cases hl
  | cons s rest ih =>
    intro ts h l hl
    obtain _ | ⟨hs, hrest⟩ := h
    rw [List.getLast?_append] at hl
    cases hlast : List.getLast? _ with
    | some l' =>
      rw [hlast] at hl
      cases hl
      exact ih hrest l hlast
    | none =>
      obtain ⟨xs, l', rfl, hl'⟩ := hs.exists_closing
      rw [hlast, Option.none_or, List.getLast?_concat] at hl
      cases hl
      exact hl'

end Separated

mutual

theorem Statement.separated : ∀ {ts : List Lexeme} {s : Stmt}, Statement ts s → Separated ts
  | _, _, .ifThen _ hc hb =>
    ((hc.separated.cons (l := .leftParen) rfl).cons (l := .ifWord) rfl).join rfl hb.separated
  | _, _, .whileLoop _ hc hb =>
    ((hc.separated.cons (l := .leftParen) rfl).cons (l := .whileWord) rfl).join rfl hb.separated
  | _, _, .forLoop _ hi hc hu hb =>
    have hinit := (hi.separated.cons (l := .leftParen) rfl).cons (l := .forWord) rfl
    ((hinit.join (l := .semicolon) rfl hc.separated).join (l := .semicolon) rfl
      hu.separated).join rfl hb.separated
  | _, _, .block _ hb => hb.separated
  | _, _, .expr _ he => he.separated.concat rfl

theorem Block.separated : ∀ {ts : List Lexeme} {body : List Stmt}, Block ts body → Separated ts
  | _, _, .braces h => (h.separated.cons (l := .leftBrace) rfl).concat rfl

/-- In a program, no operand is next to an operand. -/
theorem Statements.separated : ∀ {ts : List Lexeme} {p : List Stmt}, Statements ts p → Separated ts
  | _, _, .nil => List.isChain_nil
  | _, _, .cons h hrest => h.separated.append h.exists_concat hrest.separated

end

end Imp32.Grammar
