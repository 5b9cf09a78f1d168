import Imp32.Proofs.Grammar.Sound
import Imp32.Proofs.Spelling

/-!
# Proper programs

A program is proper if it assigns to variables only and all its numbers and names can be spelled.
Whatever is read from a text is proper (`parse_proper`).
-/

namespace Imp32

open Grammar

/-- Every number and every name can be spelled. -/
def Expr.Spellable : Expr → Prop
  | value n _ => IsLiteral n
  | var name _ => IsName name
  | neg a _ => a.Spellable
  | binary a _ b _ => a.Spellable ∧ b.Spellable

/-- Every assignment is to a variable, and everything can be spelled. -/
structure Expr.Proper (e : Expr) : Prop where
  wellFormed : e.WellFormed
  spellable : e.Spellable

mutual

/-- Every expression of the statement has the property. -/
def Stmt.Each (P : Expr → Prop) : Stmt → Prop
  | .expr e _ => P e
  | .block body _ => Program.Each P body
  | .ifThen cond body _ => P cond ∧ Program.Each P body
  | .whileLoop cond body _ => P cond ∧ Program.Each P body
  | .forLoop init cond update body _ =>
    (∀ e ∈ init, P e) ∧ (∀ e ∈ cond, P e) ∧ (∀ e ∈ update, P e) ∧ Program.Each P body

def Program.Each (P : Expr → Prop) : Program → Prop
  | [] => True
  | s :: rest => s.Each P ∧ Program.Each P rest

end

section Each

variable {P Q R : Expr → Prop}

mutual

theorem Stmt.Each.and (hR : ∀ e, P e → Q e → R e) (s : Stmt) (hP : s.Each P) (hQ : s.Each Q) :
    s.Each R := by
  cases s with
  | expr e span => exact hR e hP hQ
  | block body span => exact Program.Each.and hR body hP hQ
  | ifThen cond body span => exact ⟨hR cond hP.1 hQ.1, Program.Each.and hR body hP.2 hQ.2⟩
  | whileLoop cond body span => exact ⟨hR cond hP.1 hQ.1, Program.Each.and hR body hP.2 hQ.2⟩
  | forLoop init cond update body span =>
    obtain ⟨hinit, hcond, hupdate, hbody⟩ := hP
    obtain ⟨hinit', hcond', hupdate', hbody'⟩ := hQ
    exact ⟨fun e he => hR e (hinit e he) (hinit' e he), fun e he => hR e (hcond e he) (hcond' e he),
      fun e he => hR e (hupdate e he) (hupdate' e he), Program.Each.and hR body hbody hbody'⟩

theorem Program.Each.and (hR : ∀ e, P e → Q e → R e) (p : Program) (hP : p.Each P)
    (hQ : p.Each Q) : p.Each R := by
  cases p with
  | nil => trivial
  | cons s rest => exact ⟨Stmt.Each.and hR s hP.1 hQ.1, Program.Each.and hR rest hP.2 hQ.2⟩

end

theorem Stmt.Each.imp (h : ∀ e, P e → Q e) {s : Stmt} (hP : s.Each P) : s.Each Q :=
  Stmt.Each.and (fun e hp _ => h e hp) s hP hP

theorem Program.Each.imp (h : ∀ e, P e → Q e) {p : Program} (hP : p.Each P) : p.Each Q :=
  Program.Each.and (fun e hp _ => h e hp) p hP hP

end Each

def Program.Proper (p : Program) : Prop := p.Each Expr.Proper

namespace Grammar

variable {ls : List Lexeme}

theorem Target.proper {e : Expr} (h : Target ls e) (hls : ∀ l ∈ ls, l.Proper) : e.Proper := by
  induction h with
  | ident name span => exact ⟨trivial, hls (.ident name) List.mem_cons_self⟩
  | paren _ ih => exact ih fun l hl => hls l (by simp [hl])

/-- Proper lexemes derive proper expressions. -/
theorem Derives.proper {c : Category} {e : Expr} (h : Derives c ls e)
    (hls : ∀ l ∈ ls, l.Proper) : e.Proper := by
  induction h with
  | assign span hx _ ih =>
    have hxp := hx.proper fun l hl => hls l (by simp [hl])
    have hyp := ih fun l hl => hls l (by simp [hl])
    exact ⟨⟨fun _ => hx.exists_var, hxp.wellFormed, hyp.wellFormed⟩, hxp.spellable, hyp.spellable⟩
  | @infixLeft c op _ _ _ _ span hop _ _ iha ihb =>
    have ha := iha fun l hl => hls l (by simp [hl])
    have hb := ihb fun l hl => hls l (by simp [hl])
    have hne : op ≠ .assign := by
      rintro rfl
      cases c <;> simp [Category.operators] at hop
    exact ⟨⟨fun h => absurd h hne, ha.wellFormed, hb.wellFormed⟩, ha.spellable, hb.spellable⟩
  | neg span _ ih =>
    have ha := ih fun l hl => hls l (by simp [hl])
    exact ⟨ha.wellFormed, ha.spellable⟩
  | pow span _ _ iha ihb =>
    have ha := iha fun l hl => hls l (by simp [hl])
    have hb := ihb fun l hl => hls l (by simp [hl])
    exact ⟨⟨nofun, ha.wellFormed, hb.wellFormed⟩, ha.spellable, hb.spellable⟩
  | num n span => exact ⟨trivial, hls (.num n) List.mem_cons_self⟩
  | ident name span => exact ⟨trivial, hls (.ident name) List.mem_cons_self⟩
  | paren _ ih => exact ih fun l hl => hls l (by simp [hl])
  | tighter _ ih => exact ih hls

theorem Clause.proper {e : Option Expr} (h : Clause ls e) (hls : ∀ l ∈ ls, l.Proper) :
    ∀ a ∈ e, a.Proper := by
  cases h with
  | absent => exact nofun
  | present h =>
    intro a ha
    cases ha
    exact h.proper hls

mutual

theorem Statement.proper {s : Stmt} {ls : List Lexeme} (h : Statement ls s)
    (hls : ∀ l ∈ ls, l.Proper) : s.Each Expr.Proper := by
  cases h with
  | ifThen span hc hb =>
    exact ⟨hc.proper fun l hl => hls l (by simp [hl]), Block.proper hb fun l hl => hls l (by simp [hl])⟩
  | whileLoop span hc hb =>
    exact ⟨hc.proper fun l hl => hls l (by simp [hl]), Block.proper hb fun l hl => hls l (by simp [hl])⟩
  | forLoop span hi hc hu hb =>
    exact ⟨hi.proper fun l hl => hls l (by simp [hl]), hc.proper fun l hl => hls l (by simp [hl]),
      hu.proper fun l hl => hls l (by simp [hl]), Block.proper hb fun l hl => hls l (by simp [hl])⟩
  | block span hb => exact Block.proper hb hls
  | expr span he => exact he.proper fun l hl => hls l (by simp [hl])

theorem Block.proper {body : List Stmt} {ls : List Lexeme} (h : Block ls body)
    (hls : ∀ l ∈ ls, l.Proper) : Program.Proper body := by
  cases h with
  | braces h => exact Statements.proper h fun l hl => hls l (by simp [hl])

/-- Proper lexemes derive proper programs. -/
theorem Statements.proper {p : Program} {ls : List Lexeme} (h : Statements ls p)
    (hls : ∀ l ∈ ls, l.Proper) : p.Proper := by
  cases h with
  | nil => trivial
  | cons h hrest =>
    exact ⟨Statement.proper h fun l hl => hls l (by simp [hl]),
      Statements.proper hrest fun l hl => hls l (by simp [hl])⟩

end

end Grammar

/-- A program that was read from a text is proper. -/
theorem parse_proper {source : String} {limit : Int} {p : Program}
    (h : Program.parse source limit = .ok p) : p.Proper := by
  obtain ⟨ts, hts, hp⟩ := Program.parse_eq_ok.1 h
  exact (ofTokens_sound hp).proper (tokens_iff_spells.1 ⟨ts, hts, rfl⟩).proper

end Imp32
