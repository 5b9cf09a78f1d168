import Imp32.Bindings
import Imp32.Fault
import Imp32.Program
import Imp32.Word

/-!
# Running programs

A program runs in one flat environment and has the value of its last statement. Comparisons give
1 or 0, and a condition holds when its value is greater than zero. A loop has the value of its
last turn; a `for` that never turns has the value of its first clause, and one without a condition
is 0 and runs nothing but its first clause.

An error leaves the bindings that were made before it. Loops need not end, so a run is given the
number of turns that one loop may take; running out of turns is an outcome of its own, which no
error is. The depth of the calls is not limited, though a tree may be as high as its text is long.
-/

namespace Imp32

abbrev Env := Bindings Int

/-- Why a run has no value. -/
inductive Halt where
  /-- The program failed. -/
  | error (e : EvalError)
  /-- A loop took more turns than it was given. -/
  | outOfTurns
  deriving DecidableEq, Repr

/-- An action on the variables. A halt leaves them as they are. -/
abbrev Run := EStateM Halt Env

namespace Run

def fail {α : Type} (e : EvalError) : Run α :=
  throw (.error e)

def truth (p : Bool) : Int :=
  if p then 1 else 0

/-- Turn as long as the test is positive, and give the value of the last turn. -/
def repeatWhile (test turn : Run Int) : (turns : Nat) → (result : Int) → Run Int
  | 0, _ => throw .outOfTurns
  | turns + 1, result => do
    if 0 < (← test) then
      let result ← turn
      repeatWhile test turn turns result
    else return result

end Run

/-- The value of an operator other than assignment. `span` is the place of the expression. -/
def BinaryOp.apply (op : BinaryOp) (a b : Int) (span : Span) : Except EvalError Int :=
  match op with
  | .add => .ok (Word.wrap (a + b))
  | .sub => .ok (Word.wrap (a - b))
  | .mul => .ok (Word.wrap (a * b))
  | .div => if b = 0 then .error (.divisionByZero (some span)) else .ok (Word.quotient a b)
  | .pow =>
    if b < 0 then .error (.negativeExponent b (some span)) else .ok (Word.power a b.toNat)
  | .eq => .ok (Run.truth (a = b))
  | .ne => .ok (Run.truth (a ≠ b))
  | .gt => .ok (Run.truth (a > b))
  | .ge => .ok (Run.truth (a ≥ b))
  | .lt => .ok (Run.truth (a < b))
  | .le => .ok (Run.truth (a ≤ b))
  | .assign => .error .targetNotVariable

/-- The value of an expression. Operands are taken from left to right. -/
def Expr.eval : Expr → Run Int
  | .value n _ => return n
  | .var name span => do
    match (← get).get? name with
    | some n => return n
    | none => Run.fail (.unboundVariable name (some span))
  | .neg a _ => do
    return Word.wrap (-(← a.eval))
  | .binary a .assign b _ => do
    let n ← b.eval
    match a with
    | .var name _ =>
      modify (·.set name n)
      return n
    | _ => Run.fail .targetNotVariable
  | .binary a op b span => do
    let m ← a.eval
    let n ← b.eval
    match op.apply m n span with
    | .ok r => return r
    | .error e => Run.fail e

def evalClause (e : Option Expr) : Run Int :=
  match e with
  | some e => e.eval
  | none => return 0

mutual

/-- The value of a statement, whose loops may take `turns` turns each. -/
def Stmt.exec (turns : Nat) : Stmt → Run Int
  | .expr e _ => e.eval
  | .block body _ => execAll turns body 0
  | .ifThen cond body _ => do
    if 0 < (← cond.eval) then execAll turns body 0 else return 0
  | .whileLoop cond body _ => Run.repeatWhile cond.eval (execAll turns body 0) turns 0
  | .forLoop init cond update body _ => do
    let first ← evalClause init
    match cond with
    | none => return 0
    | some cond =>
      let turn := do
        let result ← execAll turns body 0
        let _ ← evalClause update
        return result
      Run.repeatWhile cond.eval turn turns first

/-- The value of the last statement, or the given one if there is none. -/
def execAll (turns : Nat) : Program → (result : Int) → Run Int
  | [], result => return result
  | s :: rest, _ => do
    let result ← s.exec turns
    execAll turns rest result

end

/-- Run a program from an empty environment. -/
def Program.eval (turns : Nat) (p : Program) : EStateM.Result Halt Env Int :=
  execAll turns p 0 []

end Imp32
