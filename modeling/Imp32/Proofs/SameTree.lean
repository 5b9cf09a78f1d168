import Imp32.Program

/-!
# Trees up to their spans

`bare` takes the spans out of a tree. Two trees are the same but for their spans exactly when their
bare forms are equal (`Expr.sameTree_iff`, `sameTrees_iff`), so being the same is an equivalence.
-/

namespace Imp32

/-- The expression without its spans. -/
def Expr.bare : Expr → Expr
  | value n _ => value n .none
  | var name _ => var name .none
  | neg a _ => neg a.bare .none
  | binary a op b _ => binary a.bare op b.bare .none

mutual

/-- The statement without its spans. -/
def Stmt.bare : Stmt → Stmt
  | .expr e _ => .expr e.bare .none
  | .block body _ => .block (bareAll body) .none
  | .ifThen cond body _ => .ifThen cond.bare (bareAll body) .none
  | .whileLoop cond body _ => .whileLoop cond.bare (bareAll body) .none
  | .forLoop init cond update body _ =>
    .forLoop (init.map Expr.bare) (cond.map Expr.bare) (update.map Expr.bare) (bareAll body) .none

/-- The statements without their spans. -/
def bareAll : Program → Program
  | [] => []
  | s :: rest => s.bare :: bareAll rest

end

theorem Expr.sameTree_iff (a b : Expr) : a.sameTree b = true ↔ a.bare = b.bare := by
  induction a generalizing b with
  | value n _ => cases b <;> simp [sameTree, bare]
  | var name _ => cases b <;> simp [sameTree, bare]
  | neg a _ ih => cases b <;> simp [sameTree, bare, ih]
  | binary a op a' _ iha iha' => cases b <;> simp [sameTree, bare, iha, iha', and_assoc]

theorem sameClause_iff (a b : Option Expr) :
    sameClause a b = true ↔ a.map Expr.bare = b.map Expr.bare := by
  cases a <;> cases b <;> simp [sameClause, Expr.sameTree_iff]

mutual

theorem Stmt.sameTree_iff (a b : Stmt) : a.sameTree b = true ↔ a.bare = b.bare := by
  cases a with
  | expr e _ => cases b <;> simp [Stmt.sameTree, Stmt.bare, Expr.sameTree_iff]
  | block body _ =>
    cases b <;> simp only [Stmt.sameTree, Stmt.bare, reduceCtorEq, Bool.false_eq_true]
    simp [sameTrees_iff body]
  | ifThen cond body _ =>
    cases b <;> simp only [Stmt.sameTree, Stmt.bare, reduceCtorEq, Bool.false_eq_true]
    simp [sameTrees_iff body, Expr.sameTree_iff]
  | whileLoop cond body _ =>
    cases b <;> simp only [Stmt.sameTree, Stmt.bare, reduceCtorEq, Bool.false_eq_true]
    simp [sameTrees_iff body, Expr.sameTree_iff]
  | forLoop init cond update body _ =>
    cases b <;> simp only [Stmt.sameTree, Stmt.bare, reduceCtorEq, Bool.false_eq_true]
    simp [sameTrees_iff body, sameClause_iff, and_assoc]

theorem sameTrees_iff (p q : Program) : sameTrees p q = true ↔ bareAll p = bareAll q := by
  cases p with
  | nil => cases q <;> simp [sameTrees, bareAll]
  | cons s rest =>
    cases q with
    | nil => simp [sameTrees, bareAll]
    | cons s' rest' => simp [sameTrees, bareAll, Stmt.sameTree_iff s, sameTrees_iff rest]

end

theorem sameTrees_refl (p : Program) : sameTrees p p = true :=
  (sameTrees_iff p p).2 rfl

/-- Two programs that are each the same as a third are the same. -/
theorem sameTrees_of_common {p q r : Program} (hq : sameTrees p q = true)
    (hr : sameTrees p r = true) : sameTrees q r = true :=
  (sameTrees_iff q r).2 (((sameTrees_iff p q).1 hq).symm.trans ((sameTrees_iff p r).1 hr))

end Imp32
