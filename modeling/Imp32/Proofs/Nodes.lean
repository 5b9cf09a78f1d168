import Imp32.Proofs.Proper

/-!
# The nodes of a program

A program seen as lists, in the order of its text: its expressions, those among them that stand in
its statements by themselves, its statements at any depth, the variables that its expressions read
and those that they assign. What a traversal does at each node, it does along these lists.
-/

namespace Imp32

/-! ## Expressions and statements -/

/-- The expression and all expressions inside it. -/
def Expr.parts : Expr → List Expr
  | .value n span => [.value n span]
  | .var name span => [.var name span]
  | .neg a span => .neg a span :: a.parts
  | .binary a op b span => .binary a op b span :: (a.parts ++ b.parts)

theorem Expr.mem_parts (e : Expr) : e ∈ e.parts := by
  cases e <;> exact List.mem_cons_self

def clauseParts (e : Option Expr) : List Expr :=
  match e with
  | some e => e.parts
  | none => []

mutual

/-- All expressions in a statement. -/
def Stmt.parts : Stmt → List Expr
  | .expr e _ => e.parts
  | .block body _ => Program.parts body
  | .ifThen cond body _ => cond.parts ++ Program.parts body
  | .whileLoop cond body _ => cond.parts ++ Program.parts body
  | .forLoop init cond update body _ =>
    clauseParts init ++ (clauseParts cond ++ (clauseParts update ++ Program.parts body))

def Program.parts : Program → List Expr
  | [] => []
  | s :: rest => s.parts ++ Program.parts rest

end

mutual

/-- The expressions that stand in a statement by themselves. -/
def Stmt.expressions : Stmt → List Expr
  | .expr e _ => [e]
  | .block body _ => Program.expressions body
  | .ifThen cond body _ => cond :: Program.expressions body
  | .whileLoop cond body _ => cond :: Program.expressions body
  | .forLoop init cond update body _ =>
    init.toList ++ (cond.toList ++ (update.toList ++ Program.expressions body))

/-- The expressions that stand in statements by themselves. -/
def Program.expressions : Program → List Expr
  | [] => []
  | s :: rest => s.expressions ++ Program.expressions rest

end

mutual

/-- The statement and all statements inside it. -/
def Stmt.statements : Stmt → List Stmt
  | .expr e span => [.expr e span]
  | .block body span => .block body span :: Program.statements body
  | .ifThen cond body span => .ifThen cond body span :: Program.statements body
  | .whileLoop cond body span => .whileLoop cond body span :: Program.statements body
  | .forLoop init cond update body span =>
    .forLoop init cond update body span :: Program.statements body

/-- The statements at any depth. -/
def Program.statements : Program → List Stmt
  | [] => []
  | s :: rest => s.statements ++ Program.statements rest

end

theorem forall_mem_toList {P : Expr → Prop} {e : Option Expr} :
    (∀ a ∈ e.toList, P a) ↔ ∀ a ∈ e, P a := by
  simp

section Each

variable {P : Expr → Prop}

mutual

theorem Stmt.each_iff (s : Stmt) : s.Each P ↔ ∀ e ∈ s.expressions, P e := by
  cases s with
  | expr e span => exact (List.forall_mem_singleton (p := P)).symm
  | block body span => exact Program.each_iff body
  | ifThen cond body span =>
    exact (and_congr_right fun _ => Program.each_iff body).trans List.forall_mem_cons.symm
  | whileLoop cond body span =>
    exact (and_congr_right fun _ => Program.each_iff body).trans List.forall_mem_cons.symm
  | forLoop init cond update body span =>
    simp only [Stmt.Each, Stmt.expressions, List.forall_mem_append, forall_mem_toList,
      Program.each_iff body]

theorem Program.each_iff (p : Program) : p.Each P ↔ ∀ e ∈ p.expressions, P e := by
  cases p with
  | nil => exact ⟨fun _ => nofun, fun _ => trivial⟩
  | cons s rest =>
    exact (and_congr (Stmt.each_iff s) (Program.each_iff rest)).trans List.forall_mem_append.symm

end

end Each

theorem clauseParts_eq (e : Option Expr) : clauseParts e = e.toList.flatMap Expr.parts := by
  cases e with
  | none => rfl
  | some e => exact (List.append_nil _).symm

mutual

theorem Stmt.parts_eq (s : Stmt) : s.parts = s.expressions.flatMap Expr.parts := by
  cases s with
  | expr e span => exact (List.append_nil _).symm
  | block body span => exact Program.parts_eq body
  | ifThen cond body span => exact congrArg (cond.parts ++ ·) (Program.parts_eq body)
  | whileLoop cond body span => exact congrArg (cond.parts ++ ·) (Program.parts_eq body)
  | forLoop init cond update body span =>
    simp only [Stmt.parts, Stmt.expressions, List.flatMap_append, clauseParts_eq,
      Program.parts_eq body]

theorem Program.parts_eq (p : Program) : p.parts = p.expressions.flatMap Expr.parts := by
  cases p with
  | nil => rfl
  | cons s rest =>
    rw [Program.parts, Program.expressions, List.flatMap_append, Stmt.parts_eq s,
      Program.parts_eq rest]

end

theorem Program.mem_parts_of_mem_expressions {p : Program} {e a : Expr} (he : e ∈ p.expressions)
    (ha : a ∈ e.parts) : a ∈ p.parts := by
  rw [Program.parts_eq]
  exact List.mem_flatMap.2 ⟨e, he, ha⟩

theorem Stmt.each_parts {found : List Expr} {s : Stmt} (h : s.parts ⊆ found) :
    s.Each fun e => e.parts ⊆ found := by
  rw [Stmt.parts_eq] at h
  exact (each_iff s).2 fun e he a ha => h (List.mem_flatMap.2 ⟨e, he, ha⟩)

theorem Program.each_parts {found : List Expr} {p : Program} (h : p.parts ⊆ found) :
    p.Each fun e => e.parts ⊆ found :=
  (each_iff p).2 fun _ he _ ha => h (mem_parts_of_mem_expressions he ha)

/-! ## Variables -/

def Mentions (es : List Expr) (name : String) : Prop :=
  ∃ span, Expr.var name span ∈ es

/-- The variables that the expression reads, with their places. The target of an assignment is not
read. -/
def Expr.reads : Expr → List (String × Span)
  | .value _ _ => []
  | .var name span => [(name, span)]
  | .neg a _ => a.reads
  | .binary a op b _ => if op = .assign then b.reads else a.reads ++ b.reads

/-- What an assignment to this expression assigns. -/
def Expr.target : Expr → List (String × Span)
  | .var name span => [(name, span)]
  | _ => []

/-- The variables that the expression assigns, with their places, in the order of assigning. -/
def Expr.targets : Expr → List (String × Span)
  | .value _ _ | .var _ _ => []
  | .neg a _ => a.targets
  | .binary a op b _ => if op = .assign then b.targets ++ a.target else a.targets ++ b.targets

def Program.reads (p : Program) : List (String × Span) :=
  p.expressions.flatMap Expr.reads

def Program.targets (p : Program) : List (String × Span) :=
  p.expressions.flatMap Expr.targets

theorem Expr.mem_parts_of_mem_reads {e : Expr} {name : String} {span : Span}
    (h : (name, span) ∈ e.reads) : Expr.var name span ∈ e.parts := by
  induction e with
  | value n _ => cases h
  | var x place =>
    cases List.mem_singleton.1 h
    exact List.mem_cons_self
  | neg a _ ih => exact List.mem_cons_of_mem _ (ih h)
  | binary a op b _ iha ihb =>
    unfold reads at h
    split at h
    · exact List.mem_cons_of_mem _ (List.mem_append_right _ (ihb h))
    · exact List.mem_cons_of_mem _ (List.mem_append.2 ((List.mem_append.1 h).imp iha ihb))

theorem Expr.mem_parts_of_mem_targets {e : Expr} {name : String} {span : Span}
    (h : (name, span) ∈ e.targets) : Expr.var name span ∈ e.parts := by
  induction e with
  | value n _ => cases h
  | var x place => cases h
  | neg a _ ih => exact List.mem_cons_of_mem _ (ih h)
  | binary a op b _ iha ihb =>
    unfold targets at h
    split at h
    · obtain h | h := List.mem_append.1 h
      · exact List.mem_cons_of_mem _ (List.mem_append_right _ (ihb h))
      · cases a with
        | var x place =>
          cases List.mem_singleton.1 h
          exact List.mem_cons_of_mem _ List.mem_cons_self
        | _ => cases h
    · exact List.mem_cons_of_mem _ (List.mem_append.2 ((List.mem_append.1 h).imp iha ihb))

end Imp32
