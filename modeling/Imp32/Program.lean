import Imp32.Operator
import Imp32.Span

/-!
# Programs

A program is a list of statements over expressions. Every node carries the span it was read from,
for messages only: `sameTrees` compares programs without the spans.

An assignment is a binary operator whose left operand is meant to be a variable. A tree that was
built by hand may have another left operand; `WellFormed` says that it has not.
-/

namespace Imp32

/-- An expression. -/
inductive Expr where
  | value (n : Int) (span : Span)
  | var (name : String) (span : Span)
  | neg (operand : Expr) (span : Span)
  | binary (lhs : Expr) (op : BinaryOp) (rhs : Expr) (span : Span)
  deriving DecidableEq, Inhabited, Repr

/-- A statement. The clauses of a `for` may be absent. -/
inductive Stmt where
  | expr (expr : Expr) (span : Span)
  | block (body : List Stmt) (span : Span)
  | ifThen (cond : Expr) (body : List Stmt) (span : Span)
  | whileLoop (cond : Expr) (body : List Stmt) (span : Span)
  | forLoop (init cond update : Option Expr) (body : List Stmt) (span : Span)
  deriving Inhabited, Repr

/-- A program is its statements in order. -/
abbrev Program := List Stmt

namespace Expr

def span : Expr → Span
  | value _ span | var _ span | neg _ span | binary _ _ _ span => span

/-- The expressions are equal but for their spans. -/
def sameTree : Expr → Expr → Bool
  | value n _, value m _ => n = m
  | var x _, var y _ => x = y
  | neg a _, neg b _ => a.sameTree b
  | binary a op b _, binary a' op' b' _ => a.sameTree a' && op = op' && b.sameTree b'
  | _, _ => false

/-- Every assignment is to a variable. -/
def WellFormed : Expr → Prop
  | value _ _ | var _ _ => True
  | neg a _ => a.WellFormed
  | binary a op b _ => (op = .assign → ∃ name span, a = var name span) ∧ a.WellFormed ∧ b.WellFormed

end Expr

/-- Two clauses are both absent, or equal but for their spans. -/
def sameClause : Option Expr → Option Expr → Bool
  | none, none => true
  | some a, some b => a.sameTree b
  | _, _ => false

mutual

/-- The statements are equal but for their spans. -/
def Stmt.sameTree : Stmt → Stmt → Bool
  | .expr a _, .expr b _ => a.sameTree b
  | .block body _, .block body' _ => sameTrees body body'
  | .ifThen a body _, .ifThen b body' _ => a.sameTree b && sameTrees body body'
  | .whileLoop a body _, .whileLoop b body' _ => a.sameTree b && sameTrees body body'
  | .forLoop a b c body _, .forLoop a' b' c' body' _ =>
    sameClause a a' && sameClause b b' && sameClause c c' && sameTrees body body'
  | _, _ => false

/-- The programs are equal but for their spans. -/
def sameTrees : Program → Program → Bool
  | [], [] => true
  | s :: rest, s' :: rest' => s.sameTree s' && sameTrees rest rest'
  | _, _ => false

end

/-- Where the statement was read. -/
def Stmt.span : Stmt → Span
  | .expr _ span | .block _ span | .ifThen _ _ span | .whileLoop _ _ span
  | .forLoop _ _ _ _ span => span

end Imp32
