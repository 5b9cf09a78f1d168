import Imp32.Proofs.Evaluation

/-!
# Trees at another place

The same text further back gives the same trees with all their spans moved: `shift` moves the spans
of a tree and those that an error points at. A run does not look at spans, so a tree that was moved
runs as before and only its errors are moved (`execAll_shift`), and a program behind another one
goes on from the variables that the other one leaves (`eval_append_shift`).
-/

namespace Imp32

/-! ## Moving trees and errors -/

/-- The expression moved by a number of bytes. -/
def Expr.shift (e : Expr) (n : Int) : Expr :=
  match e with
  | value v span => value v (span.shift n)
  | var name span => var name (span.shift n)
  | neg a span => neg (a.shift n) (span.shift n)
  | binary a op b span => binary (a.shift n) op (b.shift n) (span.shift n)

mutual

/-- The statement moved by a number of bytes. -/
def Stmt.shift (s : Stmt) (n : Int) : Stmt :=
  match s with
  | .expr e span => .expr (e.shift n) (span.shift n)
  | .block body span => .block (shiftAll body n) (span.shift n)
  | .ifThen cond body span => .ifThen (cond.shift n) (shiftAll body n) (span.shift n)
  | .whileLoop cond body span => .whileLoop (cond.shift n) (shiftAll body n) (span.shift n)
  | .forLoop init cond update body span =>
    .forLoop (init.map (·.shift n)) (cond.map (·.shift n)) (update.map (·.shift n))
      (shiftAll body n) (span.shift n)

/-- The statements moved by a number of bytes. -/
def shiftAll (p : Program) (n : Int) : Program :=
  match p with
  | [] => []
  | s :: rest => s.shift n :: shiftAll rest n

end

theorem Expr.span_shift (e : Expr) (n : Int) : (e.shift n).span = e.span.shift n := by
  cases e <;> rfl

theorem shiftAll_append (p q : Program) (n : Int) :
    shiftAll (p ++ q) n = shiftAll p n ++ shiftAll q n := by
  induction p with
  | nil => rfl
  | cons s rest ih => exact congrArg (s.shift n :: ·) ih

theorem shiftAll_reverse (p : Program) (n : Int) :
    shiftAll p.reverse n = (shiftAll p n).reverse := by
  induction p with
  | nil => rfl
  | cons s rest ih =>
    rw [List.reverse_cons, shiftAll_append, ih]
    exact List.reverse_cons.symm

@[simp] theorem Span.shift_zero (a : Span) : a.shift 0 = a := by
  simp [shift]

@[simp] theorem Token.shift_zero (t : Token) : t.shift 0 = t := by
  simp [shift]

@[simp] theorem Expr.shift_zero (e : Expr) : e.shift 0 = e := by
  induction e <;> simp_all [shift]

mutual

theorem Stmt.shift_zero (s : Stmt) : s.shift 0 = s := by
  cases s with
  | expr e span => simp [Stmt.shift]
  | block body span => simp [Stmt.shift, shiftAll_zero body]
  | ifThen cond body span => simp [Stmt.shift, shiftAll_zero body]
  | whileLoop cond body span => simp [Stmt.shift, shiftAll_zero body]
  | forLoop init cond update body span => simp [Stmt.shift, shiftAll_zero body]

/-- Moved by no byte, statements are where they were. -/
theorem shiftAll_zero (p : Program) : shiftAll p 0 = p := by
  cases p with
  | nil => rfl
  | cons s rest => simp only [shiftAll, Stmt.shift_zero s, shiftAll_zero rest]

end

/-- The error of a program that was moved by a number of bytes. -/
def EvalError.shift (e : EvalError) (n : Int) : EvalError :=
  match e with
  | .divisionByZero span => .divisionByZero (span.map (·.shift n))
  | .unboundVariable name span => .unboundVariable name (span.map (·.shift n))
  | .negativeExponent v span => .negativeExponent v (span.map (·.shift n))
  | .targetNotVariable => .targetNotVariable

/-- Why a program that was moved by a number of bytes has no value. -/
def Halt.shift (halt : Halt) (n : Int) : Halt :=
  match halt with
  | .error e => .error (e.shift n)
  | .outOfTurns => .outOfTurns

/-- What a program that was moved by a number of bytes comes to. -/
def Outcome.shift (outcome : Outcome) (n : Int) : Outcome :=
  match outcome with
  | .ok v env => .ok v env
  | .error halt env => .error (halt.shift n) env

/-! ## Running what was moved -/

/-- The second action does what the first does, with its errors moved. -/
def Run.Shifts (n : Int) (run run' : Run Int) : Prop :=
  ∀ env, run' env = Outcome.shift (run env) n

namespace Run.Shifts

variable {n : Int} {run run' : Run Int} {f g : Int → Run Int}

theorem pure (v : Int) : Shifts n (pure v) (pure v) := fun _ => rfl

theorem fail (e : EvalError) : Shifts n (Run.fail e) (Run.fail (e.shift n)) := fun _ => rfl

theorem bind (h : Shifts n run run') (hf : ∀ v, Shifts n (f v) (g v)) :
    Shifts n (run >>= f) (run' >>= g) := by
  intro env
  have h := h env
  cases hrun : run env with
  | ok v env' =>
    rw [hrun] at h
    rw [bind_of_ok hrun, bind_of_ok h]
    exact hf v env'
  | error halt env' =>
    rw [hrun] at h
    rw [bind_of_error hrun, bind_of_error h]
    rfl

theorem ite (c : Prop) [Decidable c] {x x' : Run Int} (h : Shifts n run run')
    (hx : Shifts n x x') : Shifts n (if c then run else x) (if c then run' else x') := by
  split
  · exact h
  · exact hx

theorem repeatWhile {turn turn' : Run Int} (htest : Shifts n run run')
    (hturn : Shifts n turn turn') (turns : Nat) :
    ∀ result, Shifts n (repeatWhile run turn turns result)
      (repeatWhile run' turn' turns result) := by
  induction turns with
  | zero => exact fun _ _ => rfl
  | succ turns ih => exact fun result => htest.bind fun v => .ite _ (hturn.bind ih) (.pure result)

end Run.Shifts

theorem BinaryOp.apply_shift (op : BinaryOp) (a b : Int) (span : Span) (n : Int) :
    op.apply a b (span.shift n) = (op.apply a b span).mapError (·.shift n) := by
  unfold apply
  cases op with
  | div =>
    dsimp only
    split <;> rfl
  | pow =>
    dsimp only
    split <;> rfl
  | _ => rfl

theorem Expr.eval_shift (e : Expr) (n : Int) : Run.Shifts n e.eval (e.shift n).eval := by
  induction e with
  | value v span => exact .pure v
  | var name span =>
    intro env
    rw [shift, eval_var, eval_var]
    cases env.get? name <;> rfl
  | neg a span ih => exact ih.bind fun v => .pure _
  | binary a op b span iha ihb =>
    by_cases hop : op = .assign
    · subst hop
      rw [shift, eval_assign, eval_assign]
      refine ihb.bind fun v => ?_
      cases a with
      | var name _ => exact fun env => rfl
      | _ => exact .fail .targetNotVariable
    · rw [shift, eval_binary hop, eval_binary hop]
      refine iha.bind fun v => ihb.bind fun w => ?_
      rw [BinaryOp.apply_shift]
      cases op.apply v w span with
      | ok r => exact .pure r
      | error e => exact .fail e

theorem evalClause_shift (e : Option Expr) (n : Int) :
    Run.Shifts n (evalClause e) (evalClause (e.map (·.shift n))) := by
  cases e with
  | none => exact .pure 0
  | some e => exact e.eval_shift n

mutual

theorem Stmt.exec_shift (turns : Nat) (s : Stmt) (n : Int) :
    Run.Shifts n (s.exec turns) ((s.shift n).exec turns) := by
  cases s with
  | expr e span => exact e.eval_shift n
  | block body span => exact execAll_shift turns body n 0
  | ifThen cond body span =>
    exact (cond.eval_shift n).bind fun v => .ite _ (execAll_shift turns body n 0) (.pure 0)
  | whileLoop cond body span =>
    exact (cond.eval_shift n).repeatWhile (execAll_shift turns body n 0) turns 0
  | forLoop init cond update body span =>
    refine (evalClause_shift init n).bind fun first => ?_
    cases cond with
    | none => exact .pure 0
    | some cond =>
      exact (cond.eval_shift n).repeatWhile ((execAll_shift turns body n 0).bind fun result =>
        (evalClause_shift update n).bind fun _ => .pure result) turns first

/-- Statements that were moved run as before, and their errors are moved with them. -/
theorem execAll_shift (turns : Nat) (p : Program) (n result : Int) :
    Run.Shifts n (execAll turns p result) (execAll turns (shiftAll p n) result) := by
  cases p with
  | nil => exact .pure result
  | cons s rest => exact (Stmt.exec_shift turns s n).bind fun v => execAll_shift turns rest n v

end

/-! ## One program behind another -/

theorem execAll_append (turns : Nat) (p q : Program) (result : Int) :
    execAll turns (p ++ q) result = (execAll turns p result >>= execAll turns q) := by
  induction p generalizing result with
  | nil => rfl
  | cons s rest ih =>
    calc execAll turns (s :: rest ++ q) result
        = s.exec turns >>= execAll turns (rest ++ q) := rfl
      _ = s.exec turns >>= fun v => execAll turns rest v >>= execAll turns q := by
        rw [funext ih]
      _ = (s.exec turns >>= execAll turns rest) >>= execAll turns q := (bind_assoc _ _ _).symm

/-- Go on behind an outcome with a program that was moved. -/
def Outcome.goOn (outcome : Outcome) (turns : Nat) (q : Program) (n : Int) : Outcome :=
  match outcome with
  | .error halt env => .error halt env
  | .ok v env =>
    match q with
    | [] => .ok v env
    | s :: rest => Outcome.shift (execAll turns (s :: rest) 0 env) n

/-- A program that was moved behind another one runs on the variables which the other one leaves;
an error of the first program is the error of both. -/
theorem eval_append_shift (turns : Nat) (p q : Program) (n : Int) :
    Program.eval turns (p ++ shiftAll q n) = Outcome.goOn (Program.eval turns p) turns q n := by
  unfold Program.eval
  rw [execAll_append]
  cases hp : execAll turns p 0 [] with
  | error halt env => exact bind_of_error hp
  | ok v env =>
    rw [bind_of_ok hp, execAll_shift turns q n v env]
    cases q <;> rfl

end Imp32
